import LessonText.Proofs.Markup.Drained
import LessonText.Proofs.Reader.Spans

/-! # Readers and the passes around the rules

Blocks of MathML become keys, signs become entities, and white space and empty elements go. Between its rules and its
items a page is read as its source was.
-/

namespace LessonText

open Pattern Unicode Rendering

variable {σ τ υ : Type} {A : Reader σ} {B : Reader τ} {C : Reader υ} {f : σ → τ} {g : τ → υ} {free : Text → Prop}
  {gaps : List Text}

/-! ## What a bracket begins -/

/-- Behind every opening bracket stands something that the pattern describes. -/
inductive Opened (p : Pattern) : Text → Prop where
  | nil : Opened p []
  | plain {c t} : c ≠ '<' → Opened p t → Opened p (c :: t)
  | bracket {b w t r gs} : p.Takes b w r gs → '<' ∉ w → Opened p (w ++ t) → Opened p ('<' :: (w ++ t))

namespace Opened

variable {p : Pattern} {t w : Text}

theorem behind (h : Opened p (w ++ t)) : Opened p t := by
  induction w with
  | nil => exact h
  | cons c w ih =>
      rw [List.cons_append] at h
      generalize split : c :: (w ++ t) = u at h
      cases h with
      | nil => cases split
      | plain _ later => exact ih ((List.cons.inj split).2 ▸ later)
      | bracket _ _ later => exact ih ((List.cons.inj split).2 ▸ later)

/-- Where every other bracket is escaped, those that are left begin what the pattern describes. -/
theorem apply (plain : p.admits '<' = false) (t : Text) :
    Opened p (Rewrite.apply ⟨"<" ++ notAhead p, fun _ => "&lt;"⟩ t) := by
  -- What stands before the next bracket stays as it is.
  have kept {b : Option Char} {bound : ℕ} {w r t : Text} {ps : List (Piece Match)} (split : t = w ++ r) (none : '<' ∉ w)
      (scan : Scan (("<" ++ notAhead p : Pattern).matchAt bound 0) b t ps) :
      ∃ u, Piece.assemble (fun _ => ("&lt;" : Text)) ps = w ++ u := by
    induction scan generalizing w with
    | nil =>
        obtain ⟨rfl, -⟩ := List.append_eq_nil_iff.1 split.symm
        exact ⟨[], rfl⟩
    | plain _ _ ih =>
        cases w with
        | nil => exact ⟨_, rfl⟩
        | cons d w =>
            obtain ⟨rfl, rfl⟩ := List.cons.inj split
            rw [List.mem_cons, not_or] at none
            obtain ⟨u, same⟩ := ih rfl none.2
            exact ⟨u, congrArg _ same⟩
    | found full found =>
        obtain ⟨_, split', length, -, bracket⟩ := matchAt_takes found
        obtain ⟨same, -⟩ := List.append_inj split' length
        obtain ⟨_, _, _, _, whole, -, hbracket, -⟩ := bracket
        obtain ⟨rfl, -⟩ := takes_literal.1 hbracket
        cases w with
        | nil => exact ⟨_, rfl⟩
        | cons d w =>
            rw [same, whole] at split
            have first : '<' = d := (List.cons.inj split).1
            exact absurd (first ▸ List.mem_cons_self) none
  have all {b : Option Char} {bound : ℕ} {t : Text} {ps : List (Piece Match)}
      (scan : Scan (("<" ++ notAhead p : Pattern).matchAt bound 0) b t ps) :
      Opened p (Piece.assemble (fun _ => ("&lt;" : Text)) ps) := by
    induction scan with
    | nil => exact .nil
    | @plain b c t ps none later ih =>
        by_cases bracket : c = '<'
        · subst bracket
          obtain ⟨w, r, gs, takes, rfl⟩ := (Stuck.of_matchAt none).ahead_of_notAhead
          have unbracketed : '<' ∉ w := fun mem => by simp [takes.admits mem] at plain
          obtain ⟨u, same⟩ := kept rfl unbracketed later
          rw [Piece.assemble, same]
          exact .bracket takes unbracketed (same ▸ ih)
        · exact .plain bracket ih
    | found _ _ _ ih => exact .plain (by decide) (.plain (by decide) (.plain (by decide) (.plain (by decide) ih)))
  exact all (pieces_scan (.of_passes rfl) t)

/-- A reader that takes everything between brackets, and what stands behind each of them. -/
theorem accepts (h : Opened p t) (calm : A.Calm A.home) (between : ∀ c, c ≠ '<' → A.step A.home c = some A.home)
    (tags : ∀ b w r gs, p.Takes b w r gs → '<' ∉ w → A.run A.home ('<' :: w) = some A.home) : A.Accepts t := by
  induction length : t.length using Nat.strong_induction_on generalizing t with
  | _ n ih =>
      subst length
      cases h with
      | nil => exact Reader.reads_nil.2 calm
      | plain other later => exact Reader.reads_cons.2 ⟨_, between _ other, ih _ (by simp) later rfl⟩
      | @bracket _ w t _ _ takes unbracketed later =>
          obtain ⟨q, read, last⟩ := ih _ (by simp only [List.length_cons, List.length_append]; omega) later.behind rfl
          exact ⟨q, (Reader.run_append_of (tags _ _ _ _ takes unbracketed)).trans read, last⟩

end Opened

/-! ## Blocks of MathML, and escaping -/

namespace Markup

variable {t : Text}

theorem replaceBlocks_carries (marked : A.Marked) (clean : ∀ t, free (MathML.sanitise t)) (accepts : A.Accepts t) :
    Ensures (Session.Keeps free gaps) (MathML.replaceBlocks Rendering.protect t) A.Accepts := by
  rw [MathML.replaceBlocks_eq_apply]
  refine Rule.apply_carries marked.follows (.of_passes rfl) (fun b old rest m s same takes line reads => ?_) accepts
  obtain ⟨_, close, _, _, rfl, -, ⟨_, inside, _, _, rfl, -, ⟨_, bracket, _, _, rfl, -, ⟨opening, params, _, _, rfl, -, hopening, -⟩,
    -⟩, -⟩, hclose⟩ := takes
  obtain ⟨rfl, -⟩ := takes_literal.1 hopening
  obtain ⟨rfl, -⟩ := takes_literal.1 hclose
  have full : m.text ≠ [] := by simp [same]
  refine (marked.protect_full (clean _) (MathML.sanitise_ne_nil full)).mono fun key resets => ?_
  exact .key (v := "<math" ++ params ++ bracket ++ inside ++ "</math") marked.follows reads
    (reads.calm (by simpa using marked.opening)) (by simp) marked.closing resets

theorem ampersands_accepts (marked : A.Marked) (entity : A.run A.home "amp;" = some A.home) (accepts : A.Accepts t) :
    A.Accepts (Escape.ampersands t) := by
  have all : ∀ s, A.Reads s t → A.Reads s (Escape.ampersands t) := by
    clear accepts
    induction t with
    | nil => exact fun s h => h
    | cons c t ih =>
        intro s h
        obtain ⟨q, step, later⟩ := Reader.reads_cons.1 h
        rw [Escape.ampersands]
        split
        · rename_i escaped
          obtain rfl : c = '&' := by simpa using (Bool.and_eq_true_iff.1 escaped).1
          obtain rfl := ((marked.marks '&' (by decide)).2 s q step).2
          have whole : A.run s ('&' :: ("amp;" : Text)) = some A.home := by
            rw [Reader.run_cons, step]
            exact entity
          exact Reader.reads_append.2 ⟨A.home, whole, ih _ later⟩
        · exact Reader.reads_cons.2 ⟨q, step, ih q later⟩
  exact all A.home accepts

theorem escapeBrackets_accepts (marked : A.Marked) (lands : A.Lands '<') (entity : A.Resets "&lt;") (accepts : A.Accepts t) :
    A.Accepts (escapeBrackets.apply t) := by
  refine Rewrite.apply_carries marked.follows (.of_passes rfl) (fun b old rest m s same takes line reads => ?_) accepts
  obtain ⟨_, _, _, _, rfl, -, hbracket, rfl, -⟩ := takes
  obtain ⟨rfl, -⟩ := takes_literal.1 hbracket
  have calm : A.Calm s := reads.calm (by simpa using lands.enters)
  exact .key (v := []) marked.follows reads calm rfl lands.returns entity

/-- The signs that an author may escape. -/
def escapable : Text := "\\\x60*_\x7b\x7d[]()#+-.!"

theorem escapedSign_accepts (marked : A.Marked) (lands : A.Lands '\\')
    (signs : ∀ c ∈ escapable, A.step A.home c = some A.home ∧ A.Resets (Entity.encodeChar c)) (accepts : A.Accepts t) :
    A.Accepts (escapedSign.apply t) := by
  refine Rewrite.apply_carries marked.follows (.of_passes rfl) (fun b old rest m s same takes line reads => ?_) accepts
  obtain ⟨_, _, _, _, rfl, groups, hslash, _, ⟨c, listed, rfl, rfl⟩, rfl⟩ := takes
  obtain ⟨rfl, rfl⟩ := takes_literal.1 hslash
  have mem : c ∈ escapable := List.contains_iff_mem.1 listed
  have first : m.group 1 = [c] := Match.group_eq groups
  have entity : escapedSign.replace m = Entity.encodeChar c := by
    rw [show escapedSign.replace m = Entity.encode (m.group 1) from rfl, first]
    exact List.append_nil _
  have calm : A.Calm s := reads.calm (by simpa using lands.enters)
  have behind : A.Reads A.home (c :: rest) := Reader.Reads.behind (t := []) reads lands.returns
  obtain ⟨q, step, later⟩ := Reader.reads_cons.1 behind
  obtain rfl := Option.some.inj ((signs c mem).1.symm.trans step)
  rw [entity]
  exact ⟨A.home, (signs c mem).2 s calm, later, fun _ => rfl⟩

/-! ## Cleaning up -/

theorem blankLines_accepts (marked : A.Marked) (spaces : ∀ c, isSpace c = true → A.step A.home c = some A.home) (accepts : A.Accepts t) :
    A.Accepts (blankLines.apply t) := by
  refine Rewrite.apply_carries marked.follows (.of_passes rfl) (fun b old rest m s same takes line reads => ?_) accepts
  obtain ⟨_, _, _, _, rfl, -, ⟨_, w, _, _, rfl, -, ⟨rfl, start, -⟩, hspaces⟩, rfl, -⟩ := takes
  obtain ⟨-, areSpaces, -⟩ := takes_some1.1 hspaces
  obtain rfl : s = A.home := line start
  obtain ⟨q, read, later⟩ := Reader.reads_append.1 reads
  have same : A.run A.home ([] ++ w ++ []) = some A.home :=
    Reader.run_home fun c hc => spaces c (areSpaces c (by simpa using hc))
  obtain rfl := Option.some.inj (same.symm.trans read)
  exact ⟨A.home, rfl, later, fun _ => rfl⟩

/-- An empty element goes where the second reader stands at the start. -/
theorem emptyElement_accepts (follows : Follows A B f) (returns : A.Returns '>')
    (starts : ∀ s q r c, A.step s '<' = some q → opensBlock c = true → A.step q c = some r → f s = B.home)
    (accepts : A.Accepts t) : B.Accepts (emptyElement.apply t) := by
  refine Rewrite.apply_carries follows (.of_passes rfl) (fun b old rest m s same takes line reads => ?_) accepts
  obtain ⟨_, bracket', _, _, rfl, -, ⟨_, name', _, _, rfl, -, ⟨_, slash, _, _, rfl, -, ⟨_, spaces, _, _, rfl, -,
    ⟨_, close, _, _, rfl, -, ⟨bracket, name, _, _, rfl, -, hbracket, hname⟩, -⟩, -⟩, -⟩, -⟩, hclose⟩ := takes
  obtain ⟨rfl, -⟩ := takes_literal.1 hbracket
  obtain ⟨rfl, -⟩ := takes_literal.1 hclose
  obtain ⟨c, rest', rfl, opens⟩ : ∃ c u, name = c :: u ∧ opensBlock c = true := by
    rcases hname with h | h
    · cases (takes_literalFold.1 h).1 with
      | cons first _ => exact ⟨_, _, rfl, Bool.or_eq_true_iff.2 (.inl first)⟩
    · cases (takes_literalFold.1 h).1 with
      | cons first _ => exact ⟨_, _, rfl, Bool.or_eq_true_iff.2 (.inr first)⟩
  have atStart : f s = B.home := by
    have begins : A.Reads s ('<' :: c :: (rest' ++ close ++ spaces ++ slash ++ name' ++ ">" ++ rest)) := by simpa using reads
    obtain ⟨q, first, later⟩ := Reader.reads_cons.1 begins
    obtain ⟨r, second, -⟩ := Reader.reads_cons.1 later
    exact starts s q r c first opens second
  refine ⟨A.home, atStart ▸ follows.home ▸ rfl, ?_, fun _ => rfl⟩
  exact Reader.Reads.behind (t := "<" ++ (c :: rest') ++ close ++ spaces ++ slash ++ name') (by simpa using reads) returns

/-! ## The page before its items -/

/-- A page as the rules for items find it. -/
def page (t : Text) : Rendering Text := do
  let t ← Rule.applyAll Extent.document.rules (← opening t)
  return cleanUp t

theorem run_nil (post : List Rule) : run .document [] post [] = ([], {}) := rfl

theorem render_page (full : t ≠ []) (post : List Rule) :
    render .document [] post t = (page t >>= Rule.applyAll post) >>= Rendering.reinstate := by
  rw [render_eq full, page]
  simp only [bind_assoc, pure_bind]
  rfl

/-- Rules for items see the page alone, and what is in custody. -/
theorem run_congr {post post' : List Rule} (same : Rule.applyAll post (page t {}).1 = Rule.applyAll post' (page t {}).1) :
    run .document [] post t = run .document [] post' t := by
  by_cases full : t = []
  · rw [full, run_nil, run_nil]
  · rw [run, run, render_page full, render_page full]
    have behind (post : List Rule) : (page t >>= fun u => Rule.applyAll post u >>= Rendering.reinstate) {} =
        (Rule.applyAll post (page t {}).1 >>= Rendering.reinstate) (page t {}).2 := Rendering.bind_apply _ _ _
    rw [bind_assoc, bind_assoc, behind, behind, same]

/-- The rules of a page carry the text from the first reader to the second one, and cleaning up to the third. -/
theorem page_ensures (fits : A.Fits) (custody : A.FullCustody free) (marked : B.Marked) (custody' : B.Custody free)
    (follows : Follows A B f) (link : B.run B.home "<span class=\"print-only\"> (" = some B.home)
    (linked : B.run B.home ")</span>" = some B.home) (spaces : ∀ c, isSpace c = true → B.step B.home c = some B.home) (cleaned : Follows B C g)
    (starts : ∀ s q r c, B.step s '<' = some q → opensBlock c = true → B.step q c = some r → g s = C.home)
    (opened : Ensures (Session.Keeps free gaps) (opening t) A.Accepts) : Ensures (Session.Keeps free gaps) (page t) C.Accepts := by
  have rules (t : Text) (accepts : A.Accepts t) :
      Ensures (Session.Keeps free gaps) (Rule.applyAll Extent.document.rules t) B.Accepts := by
    unfold Rule.applyAll
    split
    · rename_i empty
      obtain rfl := List.isEmpty_iff.1 empty
      exact .pure (Reader.reads_nil.2 marked.calm)
    · rw [Extent.rules, List.foldlM_append]
      exact (Ensures.foldlM (Block.rules_carry fits custody) accepts).bind fun u hu =>
        Span.rules_carry fits custody marked custody' follows link linked hu
  refine opened.bind fun u hu => (rules u hu).bind fun v hv => .pure ?_
  exact emptyElement_accepts cleaned marked.closing starts (blankLines_accepts marked spaces hv)

end Markup

/-! ## A reader that refuses nothing -/

namespace Reader

def anything : Reader Unit := ⟨(), fun _ _ => some ()⟩

theorem anything_run (t : Text) : anything.run () t = some () := run_home (A := anything) fun _ _ => rfl

theorem anything_accepts (t : Text) : anything.Accepts t := ⟨(), anything_run t, rfl⟩

theorem anything_fits : anything.Fits := by
  have lands (c : Char) : anything.Lands c := ⟨rfl, fun _ _ _ => ⟨rfl, rfl⟩⟩
  exact .of_lands ⟨lands _, fun c _ => lands c, (lands _).enters, (lands _).returns, fun _ _ _ _ _ => anything_run _⟩
    (fun c _ => lands c) (fun c _ => lands c) (fun _ _ _ _ => anything_run _) (anything_run _)

/-- Where nothing is asked of what goes into custody. -/
theorem free_custody (A : Reader σ) : A.FullCustody fun _ => True :=
  ⟨⟨fun _ _ => trivial, fun _ _ => trivial, fun _ _ _ _ => trivial, fun _ _ => trivial, fun _ _ => trivial, fun _ _ _ _ => trivial⟩,
    fun _ _ => trivial⟩

end Reader

/-- No gap is recorded before the rules for items. -/
theorem Markup.page_gaps (t : Text) : Ensures (Session.Keeps (fun _ => True) gaps) (page t) fun _ => True := by
  have fits := Reader.anything_fits
  have custody := Reader.free_custody Reader.anything
  have opened : Ensures (Session.Keeps (fun _ => True) gaps) (opening t) Reader.anything.Accepts :=
    (replaceBlocks_carries fits.toMarked (fun _ => trivial) (Reader.anything_accepts _)).bind fun u _ =>
      .pure (Reader.anything_accepts _)
  exact (page_ensures fits custody fits.toMarked custody.toCustody fits.follows (Reader.anything_run _) (Reader.anything_run _)
    (fun _ _ => rfl) fits.follows (fun _ _ _ _ _ _ _ => rfl) opened).mono fun _ _ => trivial

end LessonText
