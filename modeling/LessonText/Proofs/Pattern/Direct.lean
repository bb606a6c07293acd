import LessonText.Proofs.Pattern.Scan

/-! # Patterns that miss nothing

An attempt at a direct pattern succeeds whenever some text ahead is made as the pattern describes and
what follows succeeds behind it, whatever the order of attempts is.
-/

namespace LessonText.Pattern

/-- Nothing is looked for ahead, and a repetition passes a character each time. -/
def Direct : Pattern → Prop
  | .seq p q => p.Direct ∧ q.Direct
  | .alt p q => p.Direct ∧ q.Direct
  | .many _ p => p.Direct ∧ p.Advances
  | .group _ p => p.Direct
  | .ahead _ _ => False
  | .empty | .one _ | .span _ | .run _ _ | .place _ => True

theorem prefer_isSome {eager : Bool} {more stop : Unit → Option Progress}
    (h : (more ()).isSome ∨ (stop ()).isSome) : (prefer eager more stop).isSome := by
  unfold prefer
  split <;> split <;> simp_all

theorem runFrom_isSome {eager : Bool} {accepts : Char → Bool} {next : Progress → Option Progress}
    {gs : List (Nat × Text × Nat)} {w r : Text} : ∀ before n, (∀ c ∈ w, accepts c = true) →
      (next (passed ⟨before, w ++ r, n, gs⟩ w r [])).isSome →
      (runFrom eager accepts next gs before (w ++ r) n).isSome := by
  induction w with
  | nil =>
      intro before n _ h
      rw [List.nil_append, passed_nil] at h
      cases r with
      | nil => exact h
      | cons c r =>
          rw [List.nil_append, runFrom]
          split
          · exact prefer_isSome (.inr h)
          · exact h
  | cons c w ih =>
      intro before n hw h
      obtain ⟨hc, hw⟩ := List.forall_mem_cons.1 hw
      rw [List.cons_append, runFrom, if_pos hc]
      refine prefer_isSome (.inl (ih (some c) (n + 1) hw ?_))
      rwa [passed_cons _ c w r (w ++ r)] at h

theorem repeatFrom_isSome {eager : Bool} {p : Pattern} (advances : p.Advances)
    {body : (Progress → Option Progress) → Progress → Option Progress}
    {next : Progress → Option Progress} {limit : Nat}
    (hbody : ∀ next s w r gs, s.ahead = w ++ r → s.ahead.length ≤ limit → p.Takes s.before w r gs →
      (∀ gs', (next (passed s w r gs')).isSome) → (body next s).isSome)
    {b : Option Char} {w r : Text} {gs : List (Nat × Text)} (h : Repeats p.Takes b w r gs) :
    ∀ bound s, s.before = b → s.ahead = w ++ r → w.length ≤ bound → s.ahead.length ≤ limit →
      (∀ gs', (next (passed s w r gs')).isSome) → (repeatFrom eager body next bound s).isSome := by
  induction h with
  | @stop b r =>
      intro bound s _ hs _ _ hn
      have here := hn []
      rw [← show s.ahead = r from hs, passed_nil] at here
      cases bound with
      | zero => exact here
      | succ bound => exact prefer_isSome (.inr here)
  | @more b w w' r gs gs' ht hr ih =>
      intro bound s hb hs le inside hn
      have pos := List.length_pos_iff.2 (advances _ _ _ _ ht)
      rw [List.length_append] at le
      obtain ⟨bound, rfl⟩ : ∃ n, bound = n + 1 := ⟨bound - 1, by omega⟩
      rw [List.append_assoc] at hs
      refine prefer_isSome (.inl (hbody _ s w (w' ++ r) gs hs inside (hb ▸ ht) fun kept => ?_))
      have within : (w' ++ r).length ≤ limit := by
        rw [hs, List.length_append] at inside
        omega
      refine ih bound (passed s w (w' ++ r) kept) (by simp [passed, hb]) rfl (by omega) within ?_
      intro kept'
      rw [passed_passed]
      exact hn _

/-- A direct pattern matches where some text is made as it describes. -/
theorem attempt_isSome {bound : Nat} (p : Pattern) (hp : p.Direct) : ∀ next s w r gs,
    s.ahead = w ++ r → s.ahead.length ≤ bound → p.Takes s.before w r gs →
      (∀ gs', (next (passed s w r gs')).isSome) → (p.attempt bound next s).isSome := by
  induction p with
  | empty =>
      rintro next s w r gs hs - ⟨rfl, -⟩ hn
      have here := hn []
      rwa [← show s.ahead = r from hs, passed_nil] at here
  | one accepts =>
      rintro next s w r gs hs - ⟨c, hc, rfl, -⟩ hn
      have split : s.ahead = c :: r := hs
      rw [attempt, split]
      simpa [hc, passed, Progress.step] using hn []
  | span accepts =>
      rintro next s w r gs hs - ⟨hw, hr, -⟩ hn
      rw [attempt]
      cases w with
      | nil =>
          have here := hn []
          rw [← show s.ahead = r from hs, passed_nil] at here
          split
          · exact here
          · rename_i c rest split
            have stays : accepts c = false := hr c (by rw [← show s.ahead = r from hs, split]; rfl)
            simpa [stays] using here
      | cons c w =>
          obtain ⟨hc, hw⟩ := List.forall_mem_cons.1 hw
          have split : s.ahead = c :: (w ++ r) := hs
          simp only [split, hc, if_true, spanFrom_eq s.groups hr c _ hw]
          have here := hn []
          rwa [passed_cons s c w r (w ++ r)] at here
  | run eager accepts =>
      rintro next s w r gs hs - ⟨hw, -⟩ hn
      rw [attempt, hs]
      refine runFrom_isSome s.before s.passed hw ?_
      rw [← hs]
      exact hn []
  | seq first second hf hs =>
      rintro next s w r gs split inside ⟨w₁, w₂, gs₁, gs₂, rfl, -, h₁, h₂⟩ hn
      rw [List.append_assoc] at split
      refine hf hp.1 _ s w₁ (w₂ ++ r) gs₁ split inside h₁ fun kept => ?_
      have within : (w₂ ++ r).length ≤ bound := by
        rw [split, List.length_append] at inside
        omega
      refine hs hp.2 _ (passed s w₁ (w₂ ++ r) kept) w₂ r gs₂ rfl within h₂ fun kept' => ?_
      rw [passed_passed]
      exact hn _
  | alt first second hf hs =>
      rintro next s w r gs split inside (h | h) hn
      · exact prefer_isSome (.inl (hf hp.1 next s w r gs split inside h hn))
      · exact prefer_isSome (.inr (hs hp.2 next s w r gs split inside h hn))
  | many eager body hb =>
      intro next s w r gs split inside h hn
      refine repeatFrom_isSome hp.2 (hb hp.1) h bound s rfl split ?_ inside hn
      rw [split, List.length_append] at inside
      omega
  | group index body hb =>
      rintro next s w r gs split inside ⟨gs, h, -⟩ hn
      exact hb hp _ s w r gs split inside h fun kept => hn (_ :: kept)
  | place holds =>
      rintro next s w r gs hs - ⟨rfl, hh, -⟩ hn
      have split : s.ahead = r := hs
      rw [attempt, split, if_pos hh]
      have here := hn []
      rwa [← split, passed_nil] at here
  | ahead wanted body => exact hp.elim

theorem matchAt_isSome {bound : Nat} {p : Pattern} (hp : p.Direct) {before : Option Char}
    {w r : Text} {gs : List (Nat × Text)} (inside : (w ++ r).length ≤ bound)
    (h : p.Takes before w r gs) : (p.matchAt bound 0 before (w ++ r)).isSome := by
  unfold matchAt
  rw [Option.isSome_map]
  exact attempt_isSome p hp _ ⟨before, w ++ r, 0, []⟩ w r gs rfl inside h (by simp)

/-! ## Direct patterns -/

variable {p q : Pattern} {accepts : Char → Bool}

@[simp] theorem direct_empty : empty.Direct := trivial

@[simp] theorem direct_one : (one accepts).Direct := trivial

@[simp] theorem direct_span : (span accepts).Direct := trivial

@[simp] theorem direct_run {eager : Bool} : (run eager accepts).Direct := trivial

@[simp] theorem direct_append : (p ++ q).Direct ↔ p.Direct ∧ q.Direct := .rfl

@[simp] theorem direct_or : (p ||| q).Direct ↔ p.Direct ∧ q.Direct := .rfl

@[simp] theorem direct_many {eager : Bool} : (many eager p).Direct ↔ p.Direct ∧ p.Advances := .rfl

@[simp] theorem direct_group {i : Nat} : (group i p).Direct ↔ p.Direct := .rfl

@[simp] theorem direct_literal {t : Text} : (literal t).Direct := by
  induction t with
  | nil => trivial
  | cons c t ih => exact ⟨trivial, ih⟩

@[simp] theorem direct_literalFold {t : Text} : (literalFold t).Direct := by
  induction t with
  | nil => trivial
  | cons c t ih => exact ⟨trivial, ih⟩

@[simp] theorem direct_span1 : (span1 accepts).Direct := ⟨trivial, trivial⟩

@[simp] theorem direct_most : (most accepts).Direct := trivial

end LessonText.Pattern
