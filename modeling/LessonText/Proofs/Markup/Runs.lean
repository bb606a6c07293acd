import LessonText.Proofs.Markup.Places
import LessonText.Proofs.Pattern.Lazy

/-! # Runs of lines keep wards

The lines of a run lose their beginnings and are wrapped, one by one; then the run is wrapped. Between
two lines nothing that is watched can go on.
-/

namespace LessonText.LineRun

open Draft Pattern Watch Hazard

/-- What a line of a run becomes: behind the start of a line it loses its beginning and is wrapped. -/
def Unwraps (run : LineRun) (past old new : Draft) : Prop :=
  (text past).getLast?.all (· == '\n') = true ∧ ∃ a d, old = a ++ d ∧
    new = chars run.lineOpening ++ d ++ chars run.lineClosing

variable {run : LineRun}

theorem contents_edits (passes : run.start.passes = true) (unmarked : run.start.admits '?' = false)
    (old : Draft) : ∃ e, run.contents (text old) = text e ∧ (wards e).Perm (wards old) ∧
      Edits (fun past old new _ => run.Unwraps past old new) [] old e := by
  have advances : run.line.Advances := .of_passes (by simp [line, passes])
  have sharp : run.line.Sharp :=
    .of_ends Opens.lineStart.append.append.append Closes.lineEnd.append
  refine Rewrite.apply_edits (r := ⟨run.line, fun m => run.lineOpening ++ m.group 1 ++ run.lineClosing⟩)
    advances sharp old ?_
  intro past old rest m _ found
  obtain ⟨_, _, _, _, whole, groups, ⟨_, contents, _, _, rfl, rfl, ⟨_, start, _, _, rfl, rfl,
    ⟨rfl, before, rfl⟩, hstart⟩, _, ⟨-, -, rfl⟩, rfl⟩, rfl, -, rfl⟩ := found.takes
  have noMark : '?' ∉ start := by
    intro mark
    rw [hstart.admits mark] at unmarked
    cases unmarked
  rw [List.nil_append, List.append_nil] at whole
  obtain ⟨d, rfl, rfl⟩ := split_left whole noMark
  refine ⟨chars run.lineOpening ++ d ++ chars run.lineClosing, ?_, by simp, before, _, d, rfl, rfl⟩
  simp [Match.group, Match.group?, groups]

/-- A quiet run is quiet without the beginnings of its lines. -/
theorem quiet_contents {x : Watch} {old e : Draft} (newline : x.ends "\n" = true)
    (opening : x.opens run.lineOpening = true) (closing : x.keeps run.lineClosing = true)
    (edits : Edits (fun past old new _ => run.Unwraps past old new) [] old e) (quiet : x.Quiet old) :
    x.Quiet e := by
  refine edits.quiet ?_ [] (List.nil_subset _) ?_
  · rintro past old new rest ⟨before, a, d, rfl, rfl⟩
    exact .atStart (begun_of_lineStart newline before) opening closing
  · rw [begun, Watch.nil]
    exact quiet

theorem block_advances (passes : run.start.passes = true) : run.block.Advances :=
  .of_passes (by simp [block, passes])

theorem block_sharp : run.block.Sharp := by
  refine .of_ends (Opens.append (Opens.append (Opens.append (.or .textStart (.literal rfl))))) ?_
  exact Closes.append (.or (.append_ahead (.literal rfl rfl)) .textEnd)

/-- A run whose contents stay in the text. -/
theorem rule_sound {hs : List (Hazard (Option Char))} (passes : run.start.passes = true)
    (unmarked : run.start.admits '?' = false) (kept : run.trims = false) (stays : run.finish = none)
    (newline : (watches hs).all (·.ends "\n") = true)
    (line : (watches hs).all (fun x => x.opens run.lineOpening && x.keeps run.lineClosing) = true)
    (whole : (watches hs).all (fun x => x.ends ("\n\n" ++ run.opening) &&
      x.ends (run.closing ++ "\n\n")) = true) :
    Sound (watches hs) (watches hs) run.rule.apply := by
  refine Sound.of_sharp (List.Subset.refl _) (block_advances passes) block_sharp ?_
  intro past old rest m _ found
  obtain ⟨e, contents, perm, edits⟩ := contents_edits passes unmarked old
  have replaced : run.rule.replace m =
      Pure.pure ("\n\n" ++ run.opening ++ text e ++ (run.closing ++ "\n\n")) := by
    rw [← contents, ← found.text]
    simp [rule, render, kept, stays]
  rw [replaced]
  refine .pure_of (d := chars ("\n\n" ++ run.opening) ++ e ++ chars (run.closing ++ "\n\n")) ?_
    (by simp) (by simpa using perm)
  intro x hx
  have wraps := Bool.and_eq_true_iff.1 (List.all_eq_true.1 whole x hx)
  have lines := Bool.and_eq_true_iff.1 (List.all_eq_true.1 line x hx)
  refine .enclosed wraps.1 wraps.2 fun safe => ?_
  exact quiet_contents (List.all_eq_true.1 newline x hx) lines.1 lines.2 edits
    (safe_mono (List.nil_subset _) safe)

/-! ## Every line of a run begins in the same way -/

theorem prefix_of_mark {s t r z : Text} (h : t ++ '?' :: z = s ++ r) (hs : '?' ∉ s) : s <+: t := by
  rcases List.append_eq_append_iff.1 h with ⟨a, rfl, e⟩ | ⟨a, rfl, -⟩
  · cases a with
    | nil => simp
    | cons c a =>
        obtain ⟨rfl, -⟩ := List.cons.inj e
        simp at hs
  · exact List.prefix_append _ _

/-- A line of a run that goes on with a question mark begins in the same way as every line. -/
theorem line_begins {bound : Nat} {b : Option Char} {t : Text} {m : Match} {n : Nat}
    (found : run.block.matchAt bound 0 b t = some (m, n)) (unmarked : run.start.admits '?' = false)
    (inLine : run.start.admits '\n' = false) {u line z : Text} (split : m.text = u ++ line ++ '?' :: z)
    (start : u.getLast?.all (· == '\n') = true) (here : '\n' ∉ line) :
    ∃ b' s r gs, run.start.Takes b' s r gs ∧ s <+: line := by
  obtain ⟨_, w₂, w₃, r, _, _, whole, rfl, ⟨w₀, s, _, _, rfl, rfl, first, hs⟩, last, stuck⟩ :=
    matchAt_lazy found
  have noMark {b s r gs} (h : run.start.Takes b s r gs) : '?' ∉ s := fun mem => by
    rw [h.admits mem] at unmarked
    cases unmarked
  have noNewline : '\n' ∉ s := fun mem => by
    rw [hs.admits mem] at inLine
    cases inLine
  have hw₀ : w₀ = [] ∨ w₀ = ['\n'] := by
    rcases first with ⟨rfl, -⟩ | h
    · exact .inl rfl
    · exact .inr (takes_literal.1 h).1
  have hw₃ : w₃ = [] ∨ w₃ = ['\n'] := by
    rcases last with ⟨_, _, _, _, rfl, -, h, rfl, -⟩ | ⟨rfl, -⟩
    · exact .inr (by simpa using (takes_literal.1 h).1)
    · exact .inl rfl
  rw [split, List.append_assoc] at whole
  cases hu : u.getLast? with
  | none =>
      obtain rfl := List.getLast?_eq_none_iff.1 hu
      rcases hw₀ with rfl | rfl
      · refine ⟨_, s, _, _, hs, prefix_of_mark (z := z) (r := w₂ ++ w₃) ?_ (noMark hs)⟩
        simpa using whole
      · cases line with
        | nil => cases whole
        | cons c line =>
            obtain ⟨rfl, -⟩ := List.cons.inj whole
            simp at here
  | some c =>
      rw [hu] at start
      obtain rfl : c = '\n' := beq_iff_eq.1 start
      obtain ⟨u, rfl⟩ := List.getLast?_eq_some_iff.1 hu
      have whole' : u ++ '\n' :: (line ++ '?' :: z) = w₀ ++ s ++ (w₂ ++ w₃) := by
        simpa using whole
      have short : ∀ v, w₃ ≠ v ++ '\n' :: (line ++ '?' :: z) := by
        intro v e
        have length := congrArg List.length e
        rcases hw₃ with rfl | rfl
        · simp at length
        · simp at length
          omega
      have inside : ∀ v, w₂ ++ w₃ = v ++ '\n' :: (line ++ '?' :: z) →
          ∃ b' s r gs, run.start.Takes b' s r gs ∧ s <+: line := by
        intro v behind
        rcases List.append_eq_append_iff.1 behind with ⟨v', rfl, later⟩ | ⟨v', rfl, later⟩
        · exact absurd later (short v')
        · cases v' with
          | nil => exact absurd later.symm (short [])
          | cons c v' =>
              obtain ⟨rfl, inner⟩ := List.cons.inj later
              obtain ⟨s', r', gs, takes, split'⟩ :=
                (stuck v ('\n' :: v') rfl (by simp)).or_left.ahead_of_notAhead
              refine ⟨_, s', r', gs, takes, prefix_of_mark (z := z ++ r) (r := r') ?_ (noMark takes)⟩
              calc line ++ '?' :: (z ++ r) = (line ++ '?' :: z) ++ r := by simp
                _ = s' ++ r' := by rw [inner]; exact split'
      -- The newline before the line is the first character, or the run could not stop there.
      rcases List.append_eq_append_iff.1 whole' with ⟨v, start', behind⟩ | ⟨v, -, behind⟩
      · cases v with
        | nil => exact inside [] behind.symm
        | cons c v =>
            obtain ⟨rfl, later⟩ := List.cons.inj behind
            rcases hw₀ with rfl | rfl
            · have split' : s = u ++ '\n' :: v := start'
              exact absurd (by simp [split']) noNewline
            · cases u with
              | nil =>
                  obtain ⟨-, rfl⟩ := List.cons.inj start'
                  exact ⟨_, _, _, _, hs, prefix_of_mark later (noMark hs)⟩
              | cons d u =>
                  obtain ⟨-, split'⟩ := List.cons.inj start'
                  have split'' : s = u ++ '\n' :: v := split'
                  exact absurd (by simp [split'']) noNewline
      · exact inside v behind

end LessonText.LineRun
