import LessonText.Proofs.Pattern.Takes

/-! # How a text is cut

A scan of a text finds something, passes it and goes on behind it, or finds nothing and passes one
character. `Scan` is that run as a relation, for finders that never find an empty stretch.
-/

namespace LessonText

inductive Scan {α : Type} (find : Finder α) : Option Char → Text → List (Piece α) → Prop where
  | nil {b} : find b [] = none → Scan find b [] []
  | plain {b c t ps} : find b (c :: t) = none → Scan find (some c) t ps →
      Scan find b (c :: t) (.plain c :: ps)
  | found {b w t a ps} : w ≠ [] → find b (w ++ t) = some (a, w.length) →
      Scan find (w.getLast?.or b) t ps → Scan find b (w ++ t) (.found a :: ps)

/-- A finder that passes at least one character and stays inside the text. -/
def Finder.Advances {α : Type} (find : Finder α) : Prop :=
  ∀ b t a n, find b t = some (a, n) → 0 < n ∧ n ≤ t.length

/-- What is found is a part of the text, and less text is left behind it. -/
theorem Finder.Advances.split {α : Type} {find : Finder α} (h : find.Advances) {b : Option Char} {t : Text} {a : α} {n : Nat}
    (found : find b t = some (a, n)) : ∃ w r, t = w ++ r ∧ n = w.length ∧ w ≠ [] ∧ r.length < t.length := by
  obtain ⟨pos, le⟩ := h b t a n found
  refine ⟨t.take n, t.drop n, (List.take_append_drop n t).symm, (List.length_take_of_le le).symm, ?_, ?_⟩
  · exact List.ne_nil_of_length_pos (by rwa [List.length_take_of_le le])
  · rw [List.length_drop]
    omega

theorem Finder.Advances.nil {α : Type} {find : Finder α} (h : find.Advances) (b : Option Char) : find b [] = none := by
  refine Option.eq_none_iff_forall_not_mem.2 fun found mem => ?_
  obtain ⟨pos, le⟩ := h b [] found.1 found.2 mem
  exact absurd (Nat.lt_of_lt_of_le pos le) (Nat.lt_irrefl 0)

namespace Text

variable {α : Type} {find find' longer longer' : Finder α}

/-- The character behind which one stands after passing a text. -/
theorem getLast?_cons_or (c : Char) (w : Text) (b : Option Char) : (c :: w).getLast?.or b = w.getLast?.or (some c) := by
  cases w <;> simp [List.getLast?_cons]

theorem cutFrom_skip (w t : Text) : ∀ b,
    cutFrom find longer w.length b (w ++ t) = cutFrom find longer 0 (w.getLast?.or b) t := by
  induction w with
  | nil => exact fun b => rfl
  | cons c w ih =>
      intro b
      rw [getLast?_cons_or]
      exact ih (some c)

theorem cutFrom_plain {b : Option Char} {c : Char} {t : Text} (hf : find b (c :: t) = none) :
    cutFrom find longer 0 b (c :: t) = .plain c :: cutFrom find longer 0 (some c) t := by
  rw [cutFrom, hf]

theorem cutFrom_found {b : Option Char} {w t : Text} {a : α} (hne : w ≠ [])
    (hf : find b (w ++ t) = some (a, w.length)) : cutFrom find longer 0 b (w ++ t) =
      .found a :: cutFrom find longer 0 (w.getLast?.or b) t := by
  obtain ⟨c, w, rfl⟩ := List.exists_cons_of_ne_nil hne
  rw [← cutFrom_skip (c :: w) t b]
  rw [List.cons_append, List.length_cons] at hf
  simp only [List.cons_append, List.length_cons, cutFrom, hf]

theorem cutFrom_scan (h : find.Advances) (t : Text) (b : Option Char) :
    Scan find b t (cutFrom find longer 0 b t) := by
  induction hn : t.length using Nat.strongRecOn generalizing t b with
  | ind n ih =>
      subst hn
      cases hf : find b t with
      | none =>
          cases t with
          | nil =>
              rw [cutFrom, hf]
              exact .nil hf
          | cons c t =>
              rw [cutFrom_plain hf]
              exact .plain hf (ih t.length (by simp) t (some c) rfl)
      | some found =>
          obtain ⟨a, n⟩ := found
          obtain ⟨w, r, rfl, rfl, full, shorter⟩ := h.split hf
          rw [cutFrom_found full hf]
          exact .found full hf (ih _ shorter r (w.getLast?.or b) rfl)

/-- Where a finder finds nothing a text is cut into its characters. -/
theorem cutFrom_none {w t : Text} {b : Option Char}
    (none : ∀ u v, w = u ++ v → v ≠ [] → find (u.getLast?.or b) (v ++ t) = none) :
    cutFrom find longer 0 b (w ++ t) = w.map .plain ++ cutFrom find longer 0 (w.getLast?.or b) t := by
  induction w generalizing b with
  | nil => rfl
  | cons c w ih =>
      have here : find b (c :: (w ++ t)) = Option.none := none [] (c :: w) rfl (List.cons_ne_nil _ _)
      have later := ih (b := some c) fun u v split full => by
        rw [← getLast?_cons_or c u b]
        exact none (c :: u) v (congrArg (c :: ·) split) full
      rw [List.cons_append, cutFrom_plain here, later, getLast?_cons_or]
      rfl

/-- Where a finder finds the same with `u` behind, a text with `u` behind is cut as the two texts are. -/
theorem cutFrom_append {t u : Text} (advances : find'.Advances)
    (same : ∀ w, w ≠ [] → w <:+ t → ∀ b b', find b (w ++ u) = find' b' w) : ∀ b b',
      cutFrom find longer 0 b (t ++ u) = cutFrom find' longer' 0 b' t ++ cutFrom find longer 0 (t.getLast?.or b) u := by
  induction hn : t.length using Nat.strongRecOn generalizing t with
  | ind n ih =>
      subst hn
      intro b b'
      cases hf : find' b' t with
      | none =>
          cases t with
          | nil =>
              rw [cutFrom, hf]
              rfl
          | cons c t =>
              have here := (same (c :: t) (List.cons_ne_nil c t) List.suffix_rfl b b').trans hf
              have later := ih t.length (Nat.lt_succ_self _) (fun w full inside => same w full (inside.trans (List.suffix_cons c t))) rfl
              rw [List.cons_append] at here ⊢
              rw [cutFrom_plain here, cutFrom_plain hf, later (some c) (some c), getLast?_cons_or, List.cons_append]
      | some found =>
          obtain ⟨a, n⟩ := found
          obtain ⟨w, r, rfl, rfl, full, shorter⟩ := advances.split hf
          have whole : w ++ r ≠ [] := by simp [full]
          have here := (same (w ++ r) whole List.suffix_rfl b b').trans hf
          have later := ih r.length shorter (fun v full inside => same v full (inside.trans (List.suffix_append w r))) rfl
          rw [List.append_assoc] at here ⊢
          rw [cutFrom_found full here, cutFrom_found full hf, later (w.getLast?.or b) (w.getLast?.or b'), List.getLast?_append,
            Option.or_assoc, List.cons_append]

/-- A finder that does not look at the character before a place cuts a text alike whatever stands before it. -/
theorem cutFrom_before (advances : find.Advances) (blind : ∀ b b' t, find b t = find b' t) (b b' : Option Char) (t : Text) :
    cutFrom find longer 0 b t = cutFrom find longer 0 b' t := by
  have same : ∀ w, w ≠ [] → w <:+ t → ∀ b b', find b (w ++ []) = find b' w := by
    intro w _ _ b b'
    rw [List.append_nil, blind]
  have all : cutFrom find longer 0 b (t ++ []) = cutFrom find longer 0 b' t ++ _ := cutFrom_append advances same b b'
  rwa [List.append_nil, cutFrom, advances.nil, List.append_nil] at all

end Text

namespace Piece

variable {α : Type} {m : Type → Type} [Monad m] [LawfulMonad m]

theorem assemble_plain {ps : List (Piece α)} (replace : α → Text) (w : Text) :
    assemble replace (w.map .plain ++ ps) = w ++ assemble replace ps := by
  induction w with
  | nil => rfl
  | cons c w ih => exact congrArg (c :: ·) ih

/-- A text in which nothing is found stays as it is. -/
theorem assemble_cut_none {find : Finder α} {t : Text} (replace : α → Text) (none : ∀ b v, v <:+ t → find b v = none) :
    assemble replace (t.cut find) = t := by
  have pieces : t.cut find = t.map .plain ++ [] := by
    have all : Text.cutFrom find find 0 Option.none (t ++ []) = t.map .plain ++ _ := Text.cutFrom_none fun u v split _ => by
      rw [List.append_nil]
      exact none _ v (split ▸ List.suffix_append u v)
    rwa [List.append_nil, Text.cutFrom, none _ [] List.nil_suffix] at all
  rw [pieces, assemble_plain]
  exact List.append_nil t

theorem assembleM_append (replace : α → m Text) (ps qs : List (Piece α)) :
    assembleM replace (ps ++ qs) = do return (← assembleM replace ps) ++ (← assembleM replace qs) := by
  induction ps with
  | nil => simp [assembleM]
  | cons p ps ih =>
      cases p with
      | plain c => simp only [List.cons_append, assembleM, ih, bind_assoc, pure_bind]
      | found a => simp only [List.cons_append, assembleM, ih, bind_assoc, pure_bind, List.append_assoc]

end Piece

namespace Pattern

/-- A pattern that describes no empty text. -/
def Advances (p : Pattern) : Prop := ∀ b w r gs, p.Takes b w r gs → w ≠ []

/-- A pattern with a part that passes a character. -/
def passes : Pattern → Bool
  | .one _ => true
  | .seq p q => p.passes || q.passes
  | .alt p q => p.passes && q.passes
  | .group _ p => p.passes
  | .empty | .span _ | .run _ _ | .many _ _ | .place _ | .ahead _ _ => false

@[simp] theorem passes_append {p q : Pattern} : (p ++ q).passes = (p.passes || q.passes) := rfl

theorem Advances.of_passes {p : Pattern} (h : p.passes = true) : p.Advances := by
  induction p with
  | one accepts =>
      rintro b w r gs ⟨c, -, rfl, -⟩
      simp
  | seq p q hp hq =>
      rintro b w r gs ⟨w₁, w₂, gs₁, gs₂, rfl, -, t₁, t₂⟩ empty
      obtain ⟨rfl, rfl⟩ := List.append_eq_nil_iff.1 empty
      rcases Bool.or_eq_true_iff.1 h with h | h
      · exact hp h _ _ _ _ t₁ rfl
      · exact hq h _ _ _ _ t₂ rfl
  | alt p q hp hq =>
      obtain ⟨h₁, h₂⟩ := Bool.and_eq_true_iff.1 h
      rintro b w r gs (t | t)
      · exact hp h₁ _ _ _ _ t
      · exact hq h₂ _ _ _ _ t
  | group i p hp =>
      rintro b w r gs ⟨gs', t, -⟩
      exact hp h _ _ _ _ t
  | empty | span | run | many | place | ahead => cases h

theorem Advances.matchAt {p : Pattern} (h : p.Advances) (bound least : Nat) :
    Finder.Advances (p.matchAt bound least) := by
  intro b t m n hm
  obtain ⟨rest, rfl, rfl, -, takes⟩ := matchAt_takes hm
  exact ⟨List.length_pos_iff.2 (h _ _ _ _ takes), by simp⟩

/-- Cutting by a pattern is a scan for its matches. -/
theorem pieces_scan {p : Pattern} (h : p.Advances) (t : Text) :
    Scan (p.matchAt t.length 0) none t (p.pieces t) :=
  Text.cutFrom_scan (h.matchAt _ _) t none

/-- A pattern occurs where a match is found. -/
theorem occursIn_iff {p : Pattern} {t : Text} :
    p.occursIn t = true ↔ ∃ m, Piece.found m ∈ p.pieces t := by
  unfold occursIn
  rw [List.any_eq_true]
  constructor
  · rintro ⟨x, hx, h⟩
    cases x with
    | plain c => cases h
    | found m => exact ⟨m, hx⟩
  · exact fun ⟨m, hm⟩ => ⟨_, hm, rfl⟩

end Pattern

/-- A match that a scan has found stands at its place in the text. -/
theorem Scan.mem_found {p : Pattern} {bound : Nat} {b : Option Char} {t : Text}
    {ps : List (Piece Match)} {m : Match} (h : Scan (p.matchAt bound 0) b t ps)
    (hm : .found m ∈ ps) : ∃ b u r, t = u ++ m.text ++ r ∧ p.Takes b m.text r m.groups := by
  induction h with
  | nil => cases hm
  | @plain b c t ps _ _ ih =>
      obtain ⟨b, u, r, rfl, takes⟩ := ih (by simpa using hm)
      exact ⟨b, c :: u, r, rfl, takes⟩
  | @found b w t a ps _ hf _ ih =>
      rcases List.mem_cons.1 hm with e | hm
      · cases e
        obtain ⟨rest, split, length, -, takes⟩ := Pattern.matchAt_takes hf
        exact ⟨b, [], rest, split, takes⟩
      · obtain ⟨b, u, r, rfl, takes⟩ := ih hm
        exact ⟨b, w ++ u, r, by simp, takes⟩

end LessonText
