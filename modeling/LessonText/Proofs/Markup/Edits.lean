import LessonText.Markup.Rule
import LessonText.Proofs.Pattern.Takes
import LessonText.Proofs.Warden.Custody

/-! # Edits of a draft

A rule finds its matches in the text of a draft. `Cut` lifts that scan to the draft: a match may begin
inside a key that has been passed, and then takes whole tokens. What a rule makes of the draft is a
run of edits.
-/

namespace LessonText

open Draft

theorem Draft.text_cons_ne_nil (y : Token) (d : Draft) : text (y :: d) ≠ [] := by
  cases y <;> simp [Token.text, Ward.key, Warden.keyFor, Warden.delimiter]

/-- Tokens stay or are replaced. A replacement is described by what is before, the replaced tokens, the
    new ones and what is behind. -/
inductive Edits (change : Draft → Draft → Draft → Draft → Prop) : Draft → Draft → Draft → Prop where
  | nil {past} : Edits change past [] []
  | keep {past x d e} : Edits change (past ++ [x]) d e → Edits change past (x :: d) (x :: e)
  | change {past old new d e} : change past old new d → Edits change (past ++ old) d e →
      Edits change past (old ++ d) (new ++ e)

/-- The pieces of the rest of a key and of the draft behind it. A hit is described by what is before,
    the rest of the key, the match, its tokens and what is behind. -/
inductive Cut (hit : Draft → Text → Match → Draft → Draft → Prop) :
    Draft → Text → Draft → List (Piece Match) → Prop where
  | done {past} : Cut hit past [] [] []
  | inside {past c k d ps} : Cut hit past k d ps → Cut hit past (c :: k) d (.plain c :: ps)
  | char {past c d ps} : Cut hit (past ++ [.char c]) [] d ps →
      Cut hit past [] (.char c :: d) (.plain c :: ps)
  | ward {past w c k d ps} : w.key = c :: k → Cut hit (past ++ [.ward w]) k d ps →
      Cut hit past [] (.ward w :: d) (.plain c :: ps)
  | hit {past k m old d ps} : hit past k m old d → Cut hit (past ++ old) [] d ps →
      Cut hit past k (old ++ d) (.found m :: ps)

/-- Where a scan of the text of a draft stands: before the rest `k` of a key, or before a token. -/
structure Spot (find : Finder Match) (whole past : Draft) (x k : Text) (d : Draft) : Prop where
  whole : whole = past ++ d
  passed : text past = x ++ k
  inside : k ≠ [] → ∃ before w y, past = before ++ [.ward w] ∧ w.key = y ++ k ∧ y ≠ [] ∧
    find (text before).getLast? (w.key ++ text d) = none

namespace Spot

variable {find : Finder Match} {whole past d : Draft} {x k : Text}

/-- At a sharp place the scan stands before a token. -/
theorem nil_of_sharp (h : Spot find whole past x k d) (sharp : Sharp x.getLast? (k ++ text d)) :
    k = [] := by
  by_contra hk
  obtain ⟨before, w, y, rfl, e, hy, -⟩ := h.inside hk
  have passed := h.passed
  rw [text_append, text_cons, Token.text, e, text_nil, List.append_nil, ← List.append_assoc] at passed
  rw [← List.append_cancel_right passed, List.getLast?_append_of_ne_nil _ hy] at sharp
  exact not_sharp_in_key e hy hk sharp

end Spot

theorem Cut.of_scan {p : Pattern} {bound : Nat} {whole : Draft}
    {hit : Draft → Text → Match → Draft → Draft → Prop}
    (lift : ∀ past x k d m n, Spot (p.matchAt bound 0) whole past x k d →
      p.matchAt bound 0 x.getLast? (k ++ text d) = some (m, n) →
      ∃ old rest, d = old ++ rest ∧ m.text = k ++ text old ∧ hit past k m old rest)
    {b : Option Char} {t : Text} {ps : List (Piece Match)} (scan : Scan (p.matchAt bound 0) b t ps) :
    ∀ past x k d, t = k ++ text d → b = x.getLast? → Spot (p.matchAt bound 0) whole past x k d →
      Cut hit past k d ps := by
  induction scan with
  | nil =>
      intro past x k d e _ _
      obtain ⟨rfl, empty⟩ := List.append_eq_nil_iff.1 e.symm
      cases d with
      | nil => exact .done
      | cons y d => exact absurd empty (text_cons_ne_nil y d)
  | @plain b c t ps none _ ih =>
      intro past x k d e before spot
      subst before
      cases k with
      | cons c' k =>
          obtain ⟨rfl, behind⟩ := List.cons.inj e
          refine .inside (ih past (x ++ [c]) k d behind (by simp)
            ⟨spot.whole, by simp [spot.passed], ?_⟩)
          intro _
          obtain ⟨before, w, y, past_eq, key, _, first⟩ := spot.inside (by simp)
          exact ⟨before, w, y ++ [c], past_eq, by simp [key], by simp, first⟩
      | nil =>
          cases d with
          | nil => cases e
          | cons y d =>
              have whole : whole = past ++ [y] ++ d := by simp [spot.whole]
              have passed := spot.passed
              rw [List.append_nil] at passed
              cases y with
              | char c' =>
                  obtain ⟨rfl, behind⟩ := List.cons.inj e
                  refine .char (ih (past ++ [.char c]) (x ++ [c]) [] d behind (by simp)
                    ⟨whole, ?_, ?_⟩)
                  · simp [passed, Token.text]
                  · exact fun hk => absurd rfl hk
              | ward w =>
                  obtain ⟨k, key⟩ : ∃ k, w.key = c :: k := by
                    obtain ⟨k, key⟩ := Warden.keyFor_cons w.number w.data
                    have head := e
                    rw [text_cons, Token.text, Ward.key, key] at head
                    exact ⟨k, by rw [Ward.key, key, (List.cons.inj head).1]⟩
                  have behind : c :: t = w.key ++ text d := e
                  have later : t = k ++ text d := by
                    rw [key] at behind
                    exact (List.cons.inj behind).2
                  refine .ward key (ih (past ++ [.ward w]) (x ++ [c]) k d later (by simp)
                    ⟨whole, by simp [passed, Token.text, key], ?_⟩)
                  exact fun _ => ⟨past, w, [c], rfl, by simp [key], by simp,
                    by rw [← behind, passed]; exact none⟩
  | @found b w t m ps hne found _ ih =>
      intro past x k d e before spot
      subst before
      rw [e] at found
      obtain ⟨rest', split, length, -, -⟩ := Pattern.matchAt_takes found
      obtain ⟨old, rest, rfl, match_text, hit⟩ := lift past x k d m _ spot found
      have same : w = m.text ∧ t = rest' := List.append_inj (e.trans split) length
      have behind : t = text rest := by
        have e := e
        rw [same.1, match_text, text_append, List.append_assoc] at e
        exact List.append_cancel_left (List.append_cancel_left e)
      refine .hit hit (ih (past ++ old) (x ++ w) [] rest behind ?_ ⟨?_, ?_, ?_⟩)
      · rw [List.getLast?_append]
      · rw [spot.whole, List.append_assoc]
      · rw [text_append, spot.passed, same.1, match_text]
        simp
      · exact fun hk => absurd rfl hk

variable {hit : Draft → Text → Match → Draft → Draft → Prop}
  {change : Draft → Draft → Draft → Draft → Prop}

/-- Every hit is one of the pieces. -/
theorem Cut.listed {past : Draft} {k : Text} {d : Draft} {ps : List (Piece Match)} (cut : Cut hit past k d ps) :
    Cut (fun past k m old rest => hit past k m old rest ∧ .found m ∈ ps) past k d ps := by
  have all (qs : List (Piece Match)) (sub : ps ⊆ qs) :
      Cut (fun past k m old rest => hit past k m old rest ∧ .found m ∈ qs) past k d ps := by
    induction cut with
    | done => exact .done
    | inside _ ih => exact .inside (ih (List.cons_subset.1 sub).2)
    | char _ ih => exact .char (ih (List.cons_subset.1 sub).2)
    | ward key _ ih => exact .ward key (ih (List.cons_subset.1 sub).2)
    | hit h _ ih => exact .hit ⟨h, (List.cons_subset.1 sub).1⟩ (ih (List.cons_subset.1 sub).2)
  exact all ps (List.Subset.refl ps)

/-- What a pure rewrite makes of a draft. -/
theorem Cut.assemble {replace : Match → Text}
    (each : ∀ past k m old rest, hit past k m old rest → ∃ new, replace m = k ++ text new ∧
      (wards new).Perm (wards old) ∧ change past old new rest)
    {past : Draft} {k : Text} {d : Draft} {ps : List (Piece Match)} (cut : Cut hit past k d ps) :
    ∃ e, Piece.assemble replace ps = k ++ text e ∧ (wards e).Perm (wards d) ∧
      Edits change past d e := by
  induction cut with
  | done => exact ⟨[], rfl, .nil, .nil⟩
  | inside _ ih =>
      obtain ⟨e, he, perm, edits⟩ := ih
      exact ⟨e, congrArg _ he, perm, edits⟩
  | @char past c d ps _ ih =>
      obtain ⟨e, he, perm, edits⟩ := ih
      exact ⟨.char c :: e, congrArg _ he, perm, .keep edits⟩
  | @ward past w c k d ps key _ ih =>
      obtain ⟨e, he, perm, edits⟩ := ih
      refine ⟨.ward w :: e, ?_, perm.cons w, .keep edits⟩
      rw [Piece.assemble, he, text_cons, Token.text, key]
      rfl
  | hit h _ ih =>
      obtain ⟨e, he, perm, edits⟩ := ih
      obtain ⟨new, hnew, permNew, changed⟩ := each _ _ _ _ _ h
      refine ⟨new ++ e, ?_, ?_, .change changed edits⟩
      · rw [Piece.assemble, hnew, he]
        simp
      · rw [wards_append, wards_append]
        exact permNew.append perm

/-- What a rule makes of a draft and of its wards. -/
theorem Cut.assembleM {replace : Match → Rendering Text}
    (each : ∀ past k m old rest, hit past k m old rest → ∃ f, replace m = (k ++ ·) <$> f ∧
      Turns f (wards old) fun new => change past old new rest)
    {past : Draft} {k : Text} {d : Draft} {ps : List (Piece Match)} (cut : Cut hit past k d ps) :
    ∃ f, Piece.assembleM replace ps = (k ++ ·) <$> f ∧ Turns f (wards d) (Edits change past d) := by
  induction cut with
  | @done past => exact ⟨Pure.pure (text []), rfl, .pure .nil⟩
  | @inside past c k d ps _ ih =>
      obtain ⟨f, hf, turns⟩ := ih
      refine ⟨f, ?_, turns⟩
      rw [Piece.assembleM, hf]
      rfl
  | @char past c d ps _ ih =>
      obtain ⟨f, hf, turns⟩ := ih
      refine ⟨(c :: ·) <$> f, ?_, ?_⟩
      · rw [Piece.assembleM, hf]
        rfl
      · intro others s hs
        obtain ⟨e, s', he, held, edits⟩ := turns others s hs
        refine ⟨.char c :: e, s', ?_, held, .keep edits⟩
        exact congrArg (fun r : Text × Session => (c :: r.1, r.2)) he
  | @ward past w c k d ps key _ ih =>
      obtain ⟨f, hf, turns⟩ := ih
      refine ⟨(w.key ++ ·) <$> f, ?_, ?_⟩
      · rw [Piece.assembleM, hf, key]
        rfl
      · intro others s hs
        have moved : (wards (.ward w :: d) ++ others).Perm (wards d ++ (w :: others)) :=
          List.perm_middle.symm
        obtain ⟨e, s', he, held, edits⟩ := turns (w :: others) s (hs.perm moved)
        refine ⟨.ward w :: e, s', ?_, held.perm List.perm_middle, .keep edits⟩
        exact congrArg (fun r : Text × Session => (w.key ++ r.1, r.2)) he
  | @hit past k m old d ps h _ ih =>
      obtain ⟨f, hf, turns⟩ := ih
      obtain ⟨g, hg, turned⟩ := each _ _ _ _ _ h
      refine ⟨do return (← g) ++ (← f), ?_, ?_⟩
      · rw [Piece.assembleM, hf, hg]
        funext s
        exact congrArg (fun t => (t, _)) (List.append_assoc _ _ _)
      · intro others s hs
        rw [wards_append, List.append_assoc] at hs
        obtain ⟨new, s', hnew, held, changed⟩ := turned _ s hs
        have moved : (wards new ++ (wards d ++ others)).Perm (wards d ++ (wards new ++ others)) :=
          List.perm_append_comm_assoc _ _ _
        obtain ⟨e, s'', he, held', edits⟩ := turns _ s' (held.perm moved)
        refine ⟨new ++ e, s'', ?_, ?_, .change changed edits⟩
        · calc (do return (← g) ++ (← f) : Rendering Text) s
              = (fun r : Text × Session => (r.1 ++ (f r.2).1, (f r.2).2)) (g s) := rfl
            _ = (text new ++ (f s').1, (f s').2) := by rw [hnew]
            _ = (text (new ++ e), s'') := by rw [he, text_append]
        · rw [wards_append, List.append_assoc]
          exact held'.perm (List.perm_append_comm_assoc _ _ _)

/-! ## Rules whose matches lie between tokens -/

/-- What the matches of a pattern tell about a draft: the tokens of a match, and that the pattern
    takes their text where they stand. -/
structure Found (p : Pattern) (bound : Nat) (past old rest : Draft) (m : Match) : Prop where
  text : m.text = text old
  takes : p.Takes (Draft.text past).getLast? (Draft.text old) (Draft.text rest) m.groups
  match_at : p.matchAt bound 0 (Draft.text past).getLast? (Draft.text (old ++ rest)) =
    some (m, (Draft.text old).length)

/-- No match begins inside a key. -/
def Pattern.Begins (p : Pattern) : Prop := ∀ whole past x k d m n,
  Spot (p.matchAt (text whole).length 0) whole past x k d →
    p.matchAt (text whole).length 0 x.getLast? (k ++ text d) = some (m, n) → k = []

/-- A match at the start of a draft ends between two tokens. -/
def Pattern.Ends (p : Pattern) : Prop := ∀ d b w r gs, text d = w ++ r → p.Takes b w r gs →
  w ≠ [] → ∃ old rest, d = old ++ rest ∧ text old = w ∧ text rest = r

/-- Every match consists of whole tokens. -/
structure Pattern.Sharp (p : Pattern) : Prop where
  begins : p.Begins
  ends : p.Ends

theorem Cut.of_sharp {p : Pattern} (advances : p.Advances) (sharp : p.Sharp) (d : Draft) :
    Cut (fun past k m old rest => k = [] ∧ d = past ++ old ++ rest ∧
      Found p (text d).length past old rest m) [] [] d (p.pieces (text d)) := by
  refine Cut.of_scan ?_ (Pattern.pieces_scan advances (text d)) [] [] [] d rfl rfl ⟨rfl, rfl, ?_⟩
  · intro past x k rest m n spot found
    obtain ⟨r, split, length, -, takes⟩ := Pattern.matchAt_takes found
    have atToken : k = [] := sharp.begins _ _ _ _ _ _ _ spot found
    subst atToken
    have passed := spot.passed
    rw [List.append_nil] at passed
    subst passed
    have behind : text rest = m.text ++ r := split
    obtain ⟨old, rest, rfl, hold, rfl⟩ := sharp.ends _ _ _ _ _ behind takes (advances _ _ _ _ takes)
    refine ⟨old, rest, rfl, hold.symm, rfl, ?_, hold.symm, hold ▸ takes, ?_⟩
    · rw [List.append_assoc]
      exact spot.whole
    · rw [hold, ← length]
      exact found
  · exact fun hk => absurd rfl hk

variable {p : Pattern} {d : Draft}

/-- What a pure rewrite with sharp matches makes of a draft. -/
theorem Rewrite.apply_edits {r : Rewrite} (advances : r.pattern.Advances) (sharp : r.pattern.Sharp)
    (d : Draft) (each : ∀ past old rest m, d = past ++ old ++ rest →
      Found r.pattern (text d).length past old rest m →
      ∃ new, r.replace m = text new ∧ (wards new).Perm (wards old) ∧ change past old new rest) :
    ∃ e, r.apply (text d) = text e ∧ (wards e).Perm (wards d) ∧ Edits change [] d e := by
  refine Cut.assemble ?_ (Cut.of_sharp advances sharp d)
  rintro past k m old rest ⟨rfl, whole, found⟩
  exact each past old rest m whole found

/-- What a rule with sharp matches makes of a draft and of its wards. -/
theorem Rule.apply_turns {r : Rule} (advances : r.pattern.Advances) (sharp : r.pattern.Sharp)
    (d : Draft) (each : ∀ past old rest m, d = past ++ old ++ rest →
      Found r.pattern (text d).length past old rest m → .found m ∈ r.pattern.pieces (text d) →
      Turns (r.replace m) (wards old) fun new => change past old new rest) :
    Turns (r.apply (text d)) (wards d) (Edits change [] d) := by
  obtain ⟨f, hf, turns⟩ : ∃ f, r.apply (text d) = ([] ++ ·) <$> f ∧
      Turns f (wards d) (Edits change [] d) := by
    refine Cut.assembleM ?_ (Cut.of_sharp advances sharp d).listed
    rintro past k m old rest ⟨⟨rfl, whole, found⟩, listed⟩
    exact ⟨r.replace m, rfl, each past old rest m whole found listed⟩
  rw [hf]
  exact turns

end LessonText
