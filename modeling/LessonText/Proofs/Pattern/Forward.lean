import LessonText.Proofs.Pattern.Direct

/-! # Reading forward

`p.Reads b w r gs` says that an attempt at `p`, with the character `b` before it, passes exactly `w` in front of
`r` if what follows the pattern succeeds there. Readings are put together as patterns are, and the reading of a
whole pattern is the match that it finds.
-/

namespace LessonText.Pattern

open Progress

/-- All the characters of a class that are ahead are passed. -/
theorem attempt_span {bound : Nat} {accepts : Char → Bool} {next : Progress → Option Progress} {s : Progress}
    {w r : Text} (split : s.ahead = w ++ r) (hw : ∀ c ∈ w, accepts c = true)
    (hr : ∀ c ∈ r.head?, accepts c = false) : (span accepts).attempt bound next s = next (passed s w r []) := by
  cases w with
  | nil =>
      rw [show r = s.ahead from split.symm, passed_nil]
      rw [show r = s.ahead from split.symm] at hr
      unfold attempt
      split
      · rfl
      · rename_i c rest first
        have refused : accepts c = false := hr c (by rw [first]; rfl)
        simp [refused]
  | cons c w =>
      obtain ⟨hc, hw⟩ := List.forall_mem_cons.1 hw
      have first : s.ahead = c :: (w ++ r) := split
      unfold attempt
      rw [first]
      simp only [hc, if_true]
      rw [spanFrom_eq s.groups hr c (s.passed + 1) hw, passed_cons s c w r (w ++ r)]

section Eager

variable {accepts : Char → Bool} {next : Progress → Option Progress}

theorem runFrom_refused {r : Text} (hr : ∀ c ∈ r.head?, accepts c = false) (gs : List (Nat × Text × Nat))
    (before : Option Char) (n : Nat) : runFrom true accepts next gs before r n = next ⟨before, r, n, gs⟩ := by
  cases r with
  | nil => rfl
  | cons c r => rw [runFrom, if_neg (by simp [hr c rfl])]

/-- An eager run succeeds if it does from a place further on. -/
theorem runFrom_eager {s t : Progress} {w r : Text} (hw : ∀ c ∈ w, accepts c = true) (split : s.ahead = w ++ r)
    (h : runFrom true accepts next s.groups (w.getLast?.or s.before) r (s.passed + w.length) = some t) :
    runFrom true accepts next s.groups s.before s.ahead s.passed = some t := by
  rw [split]
  generalize s.before = b at h
  generalize s.passed = n at h
  clear split
  induction w generalizing b n with
  | nil => exact h
  | cons c w ih =>
      obtain ⟨hc, hw⟩ := List.forall_mem_cons.1 hw
      have later := ih hw (some c) (n + 1) (by
        rwa [Text.getLast?_cons_or, List.length_cons, ← Nat.add_assoc, Nat.add_right_comm] at h)
      rw [List.cons_append, runFrom, if_pos hc]
      simp only [prefer, if_true, later]

/-- An eager run comes back to where it began if nothing further on succeeds. -/
theorem runFrom_back {back r : Text} (hback : ∀ c ∈ back, accepts c = true) (hr : ∀ c ∈ r.head?, accepts c = false)
    {gs : List (Nat × Text × Nat)} {before : Option Char} {n : Nat}
    (late : ∀ u v, back = u ++ v → u ≠ [] → next (passed ⟨before, back ++ r, n, gs⟩ u (v ++ r) []) = none) :
    runFrom true accepts next gs before (back ++ r) n = next ⟨before, back ++ r, n, gs⟩ := by
  induction back generalizing before n with
  | nil => exact runFrom_refused hr gs before n
  | cons c back ih =>
      obtain ⟨hc, hback⟩ := List.forall_mem_cons.1 hback
      have stopped : next ⟨some c, back ++ r, n + 1, gs⟩ = none := by simpa [passed] using late [c] back rfl (by simp)
      have later := ih hback fun u v split _ => by
        have none := late (c :: u) v (congrArg (c :: ·) split) (List.cons_ne_nil _ _)
        rwa [passed_cons _ c u (v ++ r) (back ++ r)] at none
      rw [List.cons_append, runFrom, if_pos hc, later, stopped]
      rfl

end Eager

/-- No text of the pattern stands at a place. -/
def Misses (p : Pattern) (b : Option Char) (t : Text) : Prop :=
  ∀ w r gs, t = w ++ r → ¬ p.Takes b w r gs

/-- No attempt at a pattern succeeds at a place. -/
def Fails (p : Pattern) (b : Option Char) (t : Text) : Prop :=
  ∀ bound next s, s.before = b → s.ahead = t → t.length ≤ bound → p.attempt bound next s = none

theorem Misses.fails {p : Pattern} {b : Option Char} {t : Text} (h : p.Misses b t) : p.Fails b t := by
  intro bound next s before split _
  rw [← Option.not_isSome_iff_eq_none, Option.isSome_iff_exists]
  rintro ⟨t, found⟩
  obtain ⟨w, r, gs, ahead, takes, -⟩ := attempt_takes _ _ _ _ _ found
  exact h w r _ (split.symm.trans ahead) (before ▸ takes)

namespace Fails

variable {p q : Pattern} {b : Option Char} {t : Text}

theorem append (h : p.Fails b t) : (p ++ q).Fails b t := fun bound next => h bound (q.attempt bound next)

/-- Where the second pattern fails behind every text of the first. -/
theorem behind (h : ∀ w r gs, t = w ++ r → p.Takes b w r gs → q.Fails (w.getLast?.or b) r) : (p ++ q).Fails b t := by
  rintro bound next s rfl rfl inside
  rw [← Option.not_isSome_iff_eq_none, Option.isSome_iff_exists]
  rintro ⟨u, found⟩
  obtain ⟨w, r, gs, split, takes, stopped⟩ := attempt_takes _ p _ _ _ found
  rw [split, List.length_append] at inside
  rw [h w r _ split takes bound next _ rfl rfl (by omega)] at stopped
  cases stopped

theorem isAhead (h : p.Fails b t) : (ahead true p).Fails b t := by
  intro bound next s before split inside
  rw [attempt, h bound some s before split inside]
  rfl

theorem or (hp : p.Fails b t) (hq : q.Fails b t) : (p ||| q).Fails b t := by
  intro bound next s before split inside
  change prefer true (fun _ => p.attempt bound next s) (fun _ => q.attempt bound next s) = none
  simp [prefer, hp bound next s before split inside, hq bound next s before split inside]

end Fails

theorem misses_literal {l t : Text} {b : Option Char} (h : ¬ l <+: t) : (literal l).Misses b t := by
  intro w r gs split takes
  obtain ⟨rfl, -⟩ := takes_literal.1 takes
  exact h ⟨r, split.symm⟩

/-- An attempt passes exactly this text if what follows succeeds behind it. -/
def Reads (p : Pattern) (b : Option Char) (w r : Text) (gs : List (Nat × Text)) : Prop :=
  ∃ raw : List (Nat × Text × Nat), raw.map recorded = gs ∧ ∀ bound next s t, s.before = b → s.ahead = w ++ r →
    (w ++ r).length ≤ bound → next (passed s w r raw) = some t → p.attempt bound next s = some t

/-- Readings of a pattern, one after another, down to a place where it finds nothing. -/
inductive Repeated (p : Pattern) : Option Char → Text → Text → List (Nat × Text) → Prop where
  | stop {b r} : p.Fails b r → Repeated p b [] r []
  | more {b w v r gs gs'} : w ≠ [] → p.Reads b w (v ++ r) gs → Repeated p (w.getLast?.or b) v r gs' →
      Repeated p b (w ++ v) r (gs' ++ gs)

namespace Reads

variable {p p' q : Pattern} {accepts : Char → Bool} {b : Option Char} {w v r : Text} {gs gs' : List (Nat × Text)}

theorem empty : Pattern.empty.Reads b [] r [] := by
  refine ⟨[], rfl, fun bound next s t _ split _ h => ?_⟩
  rwa [← show s.ahead = r from split, passed_nil] at h

theorem one {c : Char} (hc : accepts c = true) : (one accepts).Reads b [c] r [] := by
  refine ⟨[], rfl, fun bound next s t _ split _ h => ?_⟩
  rw [attempt, show s.ahead = c :: r from split]
  exact (if_pos hc).trans h

theorem span (hw : ∀ c ∈ w, accepts c = true) (hr : ∀ c ∈ r.head?, accepts c = false) :
    (span accepts).Reads b w r [] := by
  refine ⟨[], rfl, fun bound next s t _ split _ h => ?_⟩
  rw [attempt_span split hw hr]
  exact h

theorem append (hp : p.Reads b w (v ++ r) gs) (hq : q.Reads (w.getLast?.or b) v r gs') :
    (p ++ q).Reads b (w ++ v) r (gs' ++ gs) := by
  obtain ⟨raw, rfl, first⟩ := hp
  obtain ⟨raw', rfl, second⟩ := hq
  refine ⟨raw' ++ raw, List.map_append, fun bound next s t before split inside h => ?_⟩
  rw [List.append_assoc] at split inside
  refine first bound _ s t before split inside (second bound next _ t ?_ rfl ?_ ?_)
  · rw [← before]
    rfl
  · rw [List.length_append] at inside
    omega
  · rwa [passed_passed]

theorem literal (l : Text) : (literal l).Reads b l r [] := by
  induction l generalizing b with
  | nil => exact empty
  | cons c l ih =>
      have first : (Pattern.one (· == c)).Reads b [c] (l ++ r) [] := one (beq_self_eq_true c)
      exact first.append ih

theorem span1 (full : w ≠ []) (hw : ∀ c ∈ w, accepts c = true) (hr : ∀ c ∈ r.head?, accepts c = false) :
    (span1 accepts).Reads b w r [] := by
  obtain ⟨c, w, rfl⟩ := List.exists_cons_of_ne_nil full
  obtain ⟨hc, hw⟩ := List.forall_mem_cons.1 hw
  exact (one hc).append (span hw hr)

theorem group {i : Nat} (h : p.Reads b w r gs) : (group i p).Reads b w r ((i, w) :: gs) := by
  obtain ⟨raw, rfl, reads⟩ := h
  refine ⟨(i, w ++ r, w.length) :: raw, by simp [recorded], fun bound next s t before split inside h => ?_⟩
  refine reads bound _ s t before split inside ?_
  rw [← h, ← split]
  simp [passed, Progress.close]

theorem or_left (h : p.Reads b w r gs) : (p ||| q).Reads b w r gs := by
  obtain ⟨raw, same, reads⟩ := h
  refine ⟨raw, same, fun bound next s t before split inside h => ?_⟩
  change prefer true (fun _ => p.attempt bound next s) _ = some t
  simp [prefer, reads bound next s t before split inside h]

theorem or_right (fails : p.Fails b (w ++ r)) (h : q.Reads b w r gs) : (p ||| q).Reads b w r gs := by
  obtain ⟨raw, same, reads⟩ := h
  refine ⟨raw, same, fun bound next s t before split inside h => ?_⟩
  change prefer true (fun _ => p.attempt bound next s) (fun _ => q.attempt bound next s) = some t
  simp [prefer, fails bound next s before split inside, reads bound next s t before split inside h]

/-- The second alternative, where the first fails together with what follows it. -/
theorem or_append (fails : (p ++ p').Fails b (w ++ r)) (h : (q ++ p').Reads b w r gs) :
    ((p ||| q) ++ p').Reads b w r gs := by
  obtain ⟨raw, same, reads⟩ := h
  refine ⟨raw, same, fun bound next s t before split inside h => ?_⟩
  change prefer true (fun _ => (p ++ p').attempt bound next s) (fun _ => (q ++ p').attempt bound next s) = some t
  simp [prefer, fails bound next s before split inside, reads bound next s t before split inside h]

theorem optional (h : p.Reads b w r gs) : (Pattern.optional p).Reads b w r gs := or_left h

theorem optional_none (fails : p.Fails b r) : (Pattern.optional p).Reads b [] r [] := or_right fails empty

theorem notAhead (fails : p.Fails b r) : (ahead false p).Reads b [] r [] := by
  refine ⟨[], rfl, fun bound next s t before split inside h => ?_⟩
  rw [← show s.ahead = r from split, passed_nil] at h
  rw [attempt, fails bound some s before split inside]
  exact h

/-- What a pattern that only looks ahead finds is not passed. -/
theorem isAhead (h : p.Reads b w r gs) : (ahead true p).Reads b [] (w ++ r) [] := by
  obtain ⟨raw, -, reads⟩ := h
  refine ⟨[], rfl, fun bound next s t before split inside h => ?_⟩
  have split : s.ahead = w ++ r := split
  rw [attempt, reads bound some s _ before split inside rfl]
  rwa [← split, passed_nil] at h

theorem ahead_fails (h : p.Reads b w r gs) : (ahead false p).Fails b (w ++ r) := by
  obtain ⟨raw, -, reads⟩ := h
  intro bound next s before split inside
  rw [attempt, reads bound some s _ before split (by omega) rfl]
  rfl

theorem place {holds : Option Char → Text → Bool} (h : holds b r = true) : (place holds).Reads b [] r [] := by
  refine ⟨[], rfl, fun bound next s t before split _ found => ?_⟩
  have ahead : s.ahead = r := split
  rw [attempt, before, ahead, if_pos h]
  rwa [← ahead, passed_nil] at found

/-- An eager run goes on as far as it can. -/
theorem most (hw : ∀ c ∈ w, accepts c = true) (hr : ∀ c ∈ r.head?, accepts c = false) :
    (run true accepts).Reads b w r [] := by
  refine ⟨[], rfl, fun bound next s t _ split _ h => ?_⟩
  refine runFrom_eager hw split ?_
  rwa [runFrom_refused hr]

/-- An eager run gives back what keeps the next pattern from succeeding. -/
theorem most_append {back : Text} (hw : ∀ c ∈ w, accepts c = true) (hback : ∀ c ∈ back, accepts c = true)
    (hr : ∀ c ∈ r.head?, accepts c = false)
    (late : ∀ u v, back = u ++ v → u ≠ [] → q.Fails ((w ++ u).getLast?.or b) (v ++ r))
    (h : q.Reads (w.getLast?.or b) [] (back ++ r) gs) : (run true accepts ++ q).Reads b w (back ++ r) gs := by
  obtain ⟨raw, rfl, reads⟩ := h
  refine ⟨raw, rfl, fun bound next s t before split inside h => ?_⟩
  have within : (back ++ r).length ≤ bound := by
    rw [List.length_append] at inside
    omega
  refine runFrom_eager hw split ?_
  rw [runFrom_back hback hr fun u v same full => ?_]
  · refine reads bound next (passed s w (back ++ r) []) t (by rw [← before]; rfl) rfl within ?_
    rwa [passed_passed, List.append_nil, List.append_nil]
  · refine late u v same full bound next _ ?_ rfl ?_
    · rw [List.getLast?_append, Option.or_assoc, ← before]
      rfl
    · rw [same, List.append_assoc, List.length_append] at within
      omega

/-- Repetitions of a pattern, as many as there are. -/
theorem many (h : Repeated p b w r gs) : (many true p).Reads b w r gs := by
  suffices all : ∃ raw : List (Nat × Text × Nat), raw.map recorded = gs ∧ ∀ bound count next s t, s.before = b →
      s.ahead = w ++ r → (w ++ r).length ≤ bound → w.length ≤ count → next (passed s w r raw) = some t →
      repeatFrom true (p.attempt bound) next count s = some t by
    obtain ⟨raw, same, all⟩ := all
    refine ⟨raw, same, fun bound next s t before split inside h => all bound bound next s t before split inside ?_ h⟩
    rw [List.length_append] at inside
    omega
  induction h with
  | @stop b r fails =>
      refine ⟨[], rfl, fun bound count next s t before split inside _ h => ?_⟩
      rw [← show s.ahead = r from split, passed_nil] at h
      cases count with
      | zero => exact h
      | succ count =>
          rw [repeatFrom, fails bound _ s before split inside]
          simpa [prefer] using h
  | @more b w v r gs gs' full first _ ih =>
      obtain ⟨raw, rfl, reads⟩ := first
      obtain ⟨raw', rfl, later⟩ := ih
      refine ⟨raw' ++ raw, List.map_append, fun bound count next s t before split inside few h => ?_⟩
      have pos := List.length_pos_iff.2 full
      rw [List.append_assoc] at split inside
      rw [List.length_append] at few
      have within : (v ++ r).length ≤ bound := by
        rw [List.length_append] at inside
        omega
      obtain ⟨count, rfl⟩ : ∃ n, count = n + 1 := ⟨count - 1, by omega⟩
      have found := reads bound (repeatFrom true (p.attempt bound) next count) s t before split inside
        (later bound count next _ t (by rw [← before]; rfl) rfl within (by omega) (by rwa [passed_passed]))
      rw [repeatFrom]
      simp [prefer, found]

theorem many1 (h : Repeated p b w r gs) (full : w ≠ []) : (Pattern.many1 p).Reads b w r gs := by
  cases h with
  | stop => exact absurd rfl full
  | more _ first later => exact first.append (many later)

/-- The match that a reading of the whole pattern finds. -/
theorem matchAt (h : p.Reads b w r gs) {bound : Nat} (inside : (w ++ r).length ≤ bound) :
    p.matchAt bound 0 b (w ++ r) = some (⟨w, gs⟩, w.length) := by
  obtain ⟨raw, rfl, reads⟩ := h
  have found := reads bound some ⟨b, w ++ r, 0, []⟩ _ rfl rfl inside rfl
  simp only [Pattern.matchAt, Nat.zero_le, if_true, found]
  simp [passed, recorded]

end Reads

/-! ## Lazy runs -/

/-- An attempt passes exactly this text if what follows succeeds behind it, and behind none of the early texts. -/
def Lazily (p : Pattern) (b : Option Char) (w r : Text) (gs : List (Nat × Text)) (early : Text → Prop) : Prop :=
  ∃ raw : List (Nat × Text × Nat), raw.map recorded = gs ∧ ∀ bound next s t, s.before = b → s.ahead = w ++ r →
    (w ++ r).length ≤ bound → (∀ u x raw', early u → w ++ r = u ++ x → next (passed s u x raw') = none) →
    next (passed s w r raw) = some t → p.attempt bound next s = some t

namespace Lazily

variable {p q : Pattern} {accepts : Char → Bool} {b : Option Char} {w v r : Text} {gs gs' : List (Nat × Text)}
  {early : Text → Prop}

/-- A lazy run stops at the first place where what follows it succeeds. -/
theorem fewest (hw : ∀ c ∈ w, accepts c = true) :
    (fewest accepts).Lazily b w r [] fun u => ∃ v, w = u ++ v ∧ v ≠ [] := by
  have all (next : Progress → Option Progress) (t : Progress) : ∀ w before n gs, (∀ c ∈ w, accepts c = true) →
      (∀ u v, w = u ++ v → v ≠ [] → next (passed ⟨before, w ++ r, n, gs⟩ u (v ++ r) []) = none) →
      next (passed ⟨before, w ++ r, n, gs⟩ w r []) = some t →
      runFrom false accepts next gs before (w ++ r) n = some t := by
    intro w
    induction w with
    | nil =>
        intro before n gs _ _ last
        rw [List.nil_append, passed_nil] at last
        cases r with
        | nil => exact last
        | cons c r =>
            rw [List.nil_append, runFrom]
            split
            · simp [prefer, last]
            · exact last
    | cons c w ih =>
        intro before n gs hw early last
        obtain ⟨hc, hw⟩ := List.forall_mem_cons.1 hw
        have here := early [] (c :: w) rfl (List.cons_ne_nil _ _)
        have stopped : next ⟨before, c :: (w ++ r), n, gs⟩ = none := by simpa [passed] using here
        have later := ih (some c) (n + 1) gs hw
          (fun u v split full => by
            have none := early (c :: u) v (congrArg (c :: ·) split) full
            rwa [passed_cons _ c u (v ++ r) (w ++ r)] at none)
          (by rwa [passed_cons _ c w r (w ++ r)] at last)
        rw [List.cons_append, runFrom, if_pos hc]
        simp only [prefer, Bool.false_eq_true, if_false, stopped, later]
  refine ⟨[], rfl, fun bound next s t _ split _ stuck h => ?_⟩
  have run := all next t w s.before s.passed s.groups hw
    (fun u v e full => by
      have none := stuck u (v ++ r) [] ⟨v, e, full⟩ (by rw [e, List.append_assoc])
      rwa [← split])
    (by rwa [← split])
  rwa [← split] at run

/-- A lazy repetition of a pattern that passes one character stops at the first place where what follows it succeeds. -/
theorem many (each : ∀ c ∈ w, ∀ b r, p.Reads b [c] r []) :
    (many false p).Lazily b w r [] fun u => ∃ v, w = u ++ v ∧ v ≠ [] := by
  refine ⟨[], rfl, fun bound next s t before split inside stuck h => ?_⟩
  suffices all : ∀ count s, s.before = b → s.ahead = w ++ r → w.length ≤ count →
      (∀ u v, w = u ++ v → v ≠ [] → next (passed s u (v ++ r) []) = none) → next (passed s w r []) = some t →
      repeatFrom false (p.attempt bound) next count s = some t by
    refine all bound s before split ?_ (fun u v same full => ?_) h
    · rw [List.length_append] at inside
      omega
    · exact stuck u (v ++ r) [] ⟨v, same, full⟩ (by rw [same, List.append_assoc])
  clear before split stuck h s
  induction w generalizing b with
  | nil =>
      intro count s _ split _ _ last
      rw [← show s.ahead = r from split, passed_nil] at last
      cases count with
      | zero => exact last
      | succ count => rw [repeatFrom]; simp [prefer, last]
  | cons c w ih =>
      intro count s before split few early last
      obtain ⟨hc, hw⟩ := List.forall_mem_cons.1 each
      obtain ⟨count, rfl⟩ : ∃ n, count = n + 1 := ⟨count - 1, by rw [List.length_cons] at few; omega⟩
      have within : (w ++ r).length ≤ bound := by
        rw [List.cons_append, List.length_cons] at inside
        omega
      have stopped : next s = none := by
        have here := early [] (c :: w) rfl (List.cons_ne_nil _ _)
        rwa [← show s.ahead = c :: w ++ r from split, passed_nil] at here
      have later := ih hw within (b := some c) count (passed s [c] (w ++ r) []) rfl rfl
        (by rw [List.length_cons] at few; omega)
        (fun u v same full => by
          have none := early (c :: u) v (congrArg (c :: ·) same) full
          rwa [passed_passed])
        (by rwa [passed_passed])
      obtain ⟨raw, plain, reads⟩ := hc b (w ++ r)
      obtain rfl := List.map_eq_nil_iff.1 plain
      have found := reads bound _ s t before split inside later
      rw [repeatFrom]
      simp only [prefer, Bool.false_eq_true, if_false, stopped, found]

theorem optional (h : p.Lazily b w r gs early) : (Pattern.optional p).Lazily b w r gs early := by
  obtain ⟨raw, same, reads⟩ := h
  refine ⟨raw, same, fun bound next s t before split inside stuck h => ?_⟩
  change prefer true (fun _ => p.attempt bound next s) _ = some t
  simp [prefer, reads bound next s t before split inside stuck h]

theorem append_one {c : Char} (h : p.Lazily b w (c :: r) gs early) (hc : accepts c = true) :
    (p ++ one accepts).Lazily b (w ++ [c]) r gs fun x => ∃ u d, x = u ++ [d] ∧ early u ∧ accepts d = true := by
  obtain ⟨raw, same, reads⟩ := h
  refine ⟨raw, same, fun bound next s t before split inside stuck h => ?_⟩
  rw [List.append_assoc] at split inside
  refine reads bound _ s t before split inside (fun u x raw' hu whole => ?_) ?_
  · cases x with
    | nil => rfl
    | cons d x =>
        show (if accepts d then next _ else none) = none
        split
        · rename_i hd
          have none := stuck (u ++ [d]) x raw' ⟨u, d, rfl, hu, hd⟩ (by simp [whole])
          rwa [show raw' = [] ++ raw' from rfl, ← passed_passed _ u [d] (d :: x)] at none
        · rfl
  · refine (if_pos hc).trans ?_
    rwa [show raw = [] ++ raw from rfl, ← passed_passed _ w [c] (c :: r)] at h

theorem group {i : Nat} (h : p.Lazily b w r gs early) : (group i p).Lazily b w r ((i, w) :: gs) early := by
  obtain ⟨raw, rfl, reads⟩ := h
  refine ⟨(i, w ++ r, w.length) :: raw, by simp [recorded], fun bound next s t before split inside stuck h => ?_⟩
  refine reads bound _ s t before split inside (fun u x raw' hu whole => ?_) ?_
  · have none := stuck u x ((i, s.ahead, u.length) :: raw') hu whole
    rw [← none]
    simp [passed, Progress.close]
  · rw [← h, ← split]
    simp [passed, Progress.close]

/-- A lazy run behind a text that is passed. -/
theorem after (first : p.Reads b w (v ++ r) gs) (second : q.Lazily (w.getLast?.or b) v r gs' early) :
    (p ++ q).Lazily b (w ++ v) r (gs' ++ gs) fun x => ∃ u, x = w ++ u ∧ early u := by
  obtain ⟨raw, rfl, first⟩ := first
  obtain ⟨raw', rfl, second⟩ := second
  refine ⟨raw' ++ raw, List.map_append, fun bound next s t before split inside stuck h => ?_⟩
  rw [List.append_assoc] at split inside
  have within : (v ++ r).length ≤ bound := by
    rw [List.length_append] at inside
    omega
  refine first bound _ s t before split inside (second bound next _ t (by rw [← before]; rfl) rfl within ?_ ?_)
  · intro u x raw'' hu whole
    rw [passed_passed]
    exact stuck (w ++ u) x _ ⟨u, rfl, hu⟩ (by simp [whole])
  · rwa [passed_passed]

/-- What follows a lazy run and is not found early. -/
theorem append (hp : p.Lazily b w (v ++ r) gs early) (hq : q.Reads (w.getLast?.or b) v r gs')
    (late : ∀ u x, early u → w ++ (v ++ r) = u ++ x → q.Fails (u.getLast?.or b) x) :
    (p ++ q).Reads b (w ++ v) r (gs' ++ gs) := by
  obtain ⟨raw, rfl, first⟩ := hp
  obtain ⟨raw', rfl, second⟩ := hq
  refine ⟨raw' ++ raw, List.map_append, fun bound next s t before split inside h => ?_⟩
  rw [List.append_assoc] at split inside
  refine first bound _ s t before split inside (fun u x raw'' hu whole => ?_) ?_
  · refine late u x hu whole bound next _ (by rw [← before]; rfl) rfl ?_
    rw [whole, List.length_append] at inside
    omega
  · refine second bound next _ t (by rw [← before]; rfl) rfl ?_ (by rwa [passed_passed])
    rw [List.length_append] at inside
    omega

end Lazily

end LessonText.Pattern
