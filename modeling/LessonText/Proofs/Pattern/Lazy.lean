import LessonText.Proofs.Pattern.Takes

/-! # The shortest match

A lazy run of characters stops at the first place where what follows it matches. So what follows it
matches nowhere inside it.
-/

namespace LessonText.Pattern

/-- A pattern matches nothing at a place. -/
def Stuck (bound : Nat) (p : Pattern) (before : Option Char) (ahead : Text) : Prop :=
  ∃ n gs, p.attempt bound some ⟨before, ahead, n, gs⟩ = none

namespace Stuck

variable {bound : Nat} {p q : Pattern} {b : Option Char} {t : Text} {c : Char}

theorem of_matchAt (h : p.matchAt bound 0 b t = none) : Stuck bound p b t := by
  simp only [matchAt, Nat.zero_le, if_true, Option.map_eq_none_iff] at h
  exact ⟨0, [], h⟩

theorem or_left (h : Stuck bound (p ||| q) b t) : Stuck bound p b t := by
  obtain ⟨n, gs, none⟩ := h
  refine ⟨n, gs, ?_⟩
  cases hp : p.attempt bound some ⟨b, t, n, gs⟩ with
  | none => rfl
  | some s =>
      have found : (p ||| q).attempt bound some ⟨b, t, n, gs⟩ = some s := by
        change prefer true _ _ = some s
        simp [prefer, hp]
      rw [found] at none
      cases none

/-- A character that is not passed because of what is ahead of it. -/
theorem ahead_of_notAhead (h : Stuck bound (literal [c] ++ notAhead p) b (c :: t)) :
    ∃ s r gs, p.Takes (some c) s r gs ∧ t = s ++ r := by
  obtain ⟨n, gs, none⟩ := h
  have reads : (literal [c] ++ notAhead p).attempt bound some ⟨b, c :: t, n, gs⟩ =
      if (p.attempt bound some ⟨some c, t, n + 1, gs⟩).isSome == false then
        some ⟨some c, t, n + 1, gs⟩ else Option.none := by
    change (if (c == c) = true then _ else _) = _
    rw [if_pos (beq_self_eq_true c)]
    rfl
  cases ahead : p.attempt bound some ⟨some c, t, n + 1, gs⟩ with
  | none => simp [reads, ahead] at none
  | some s =>
      obtain ⟨w, r, gs', split, takes, -⟩ := attempt_takes bound _ _ _ _ ahead
      exact ⟨w, r, _, takes, split⟩

end Stuck

theorem runFrom_lazy {accepts : Char → Bool} {next : Progress → Option Progress}
    {gs : List (Nat × Text × Nat)} {t : Progress} (rest : Text) : ∀ before n,
      runFrom false accepts next gs before rest n = some t →
      ∃ w r, rest = w ++ r ∧ next (passed ⟨before, rest, n, gs⟩ w r []) = some t ∧
        ∀ u v, w = u ++ v → v ≠ [] →
          next (passed ⟨before, rest, n, gs⟩ u (v ++ r) []) = none := by
  induction rest with
  | nil =>
      intro before n h
      refine ⟨[], [], rfl, by simpa [passed, runFrom] using h, ?_⟩
      intro u v e hv
      exact absurd (List.append_eq_nil_iff.1 e.symm).2 hv
  | cons c rest ih =>
      intro before n h
      have here (h : next ⟨before, c :: rest, n, gs⟩ = some t) : ∃ w r, c :: rest = w ++ r ∧
          next (passed ⟨before, c :: rest, n, gs⟩ w r []) = some t ∧ ∀ u v, w = u ++ v → v ≠ [] →
            next (passed ⟨before, c :: rest, n, gs⟩ u (v ++ r) []) = none := by
        refine ⟨[], c :: rest, rfl, by simpa [passed] using h, ?_⟩
        intro u v e hv
        exact absurd (List.append_eq_nil_iff.1 e.symm).2 hv
      unfold runFrom at h
      split at h
      · unfold prefer at h
        rw [if_neg Bool.false_ne_true] at h
        split at h
        · rename_i s stopped
          exact here (stopped.trans h)
        · rename_i none
          obtain ⟨w, r, rfl, e, stuck⟩ := ih (some c) (n + 1) h
          refine ⟨c :: w, r, rfl, ?_, ?_⟩
          · rw [← e]
            exact congrArg next (passed_cons ⟨before, c :: (w ++ r), n, gs⟩ c w r _)
          · intro u v split hv
            cases u with
            | nil =>
                cases split
                exact none
            | cons d u =>
                obtain ⟨rfl, later⟩ := List.cons.inj split
                rw [← stuck u v later hv]
                exact congrArg next (passed_cons ⟨before, c :: (w ++ r), n, gs⟩ c u (v ++ r) _)
      · exact here h

/-- A match with a lazy run in it: where the run stops, and that it could not have stopped before. -/
theorem matchAt_lazy {bound : Nat} {p q : Pattern} {accepts : Char → Bool} {b : Option Char}
    {t : Text} {m : Match} {n : Nat} (h : (p ++ fewest accepts ++ q).matchAt bound 0 b t = some (m, n)) :
    ∃ w₁ w₂ w₃ r gs₁ gs₃, m.text = w₁ ++ w₂ ++ w₃ ∧ t = m.text ++ r ∧
      p.Takes b w₁ (w₂ ++ w₃ ++ r) gs₁ ∧ q.Takes ((w₁ ++ w₂).getLast?.or b) w₃ r gs₃ ∧
      ∀ u v, w₂ = u ++ v → v ≠ [] → Stuck bound q ((w₁ ++ u).getLast?.or b) (v ++ w₃ ++ r) := by
  simp only [matchAt, Nat.zero_le, if_true] at h
  obtain ⟨s, hs, hm⟩ := Option.map_eq_some_iff.1 h
  obtain ⟨w₁, r₁, gs₁, split₁, takes₁, e₁⟩ := attempt_takes bound p _ _ s hs
  obtain ⟨w₂, r₂, split₂, e₂, stuck⟩ := runFrom_lazy _ _ _ e₁
  obtain ⟨w₃, r₃, gs₃, split₃, takes₃, e₃⟩ := attempt_takes bound q _ _ s e₂
  have ahead_eq : t = w₁ ++ r₁ := split₁
  have behind : r₁ = w₂ ++ r₂ := split₂
  have last : r₂ = w₃ ++ r₃ := split₃
  have text_eq : m.text = w₁ ++ w₂ ++ w₃ := by
    cases e₃
    cases hm
    have split : t = (w₁ ++ w₂ ++ w₃) ++ r₃ := by simp [ahead_eq, behind, last]
    rw [split]
    exact List.take_left' (by simp [passed, Nat.add_assoc])
  refine ⟨w₁, w₂, w₃, r₃, gs₁.map recorded, gs₃.map recorded, text_eq, ?_, ?_, ?_, ?_⟩
  · simp [text_eq, ahead_eq, behind, last]
  · rw [List.append_assoc, ← last, ← behind]
    exact takes₁
  · simpa [passed, List.getLast?_append, Option.or_assoc] using takes₃
  · intro u v split hv
    have none := stuck u v split hv
    rw [last, ← List.append_assoc] at none
    rw [List.getLast?_append, Option.or_assoc]
    exact ⟨_, _, none⟩

/-- A lazy repetition goes on with no part that begins where what follows it matches. -/
theorem repeatFrom_lazy {stops : Char → Prop} {Part : Text → Prop}
    {body : (Progress → Option Progress) → Progress → Option Progress} {t : Progress}
    (each : ∀ next s, body next s = some t → ∃ w r, s.ahead = w ++ r ∧ Part w ∧ next (passed s w r []) = some t)
    {next : Progress → Option Progress} (found : ∀ s c, s.ahead.head? = some c → stops c → next s ≠ none)
    (bound : Nat) : ∀ s, repeatFrom false body next bound s = some t →
      ∃ (ws : List Text) (r : Text), s.ahead = ws.flatten ++ r ∧ (∀ w ∈ ws, Part w ∧ ∀ c ∈ w.head?, ¬ stops c) ∧
        next (passed s ws.flatten r []) = some t := by
  have here (s : Progress) (h : next s = some t) :
      ∃ (ws : List Text) (r : Text), s.ahead = ws.flatten ++ r ∧ (∀ w ∈ ws, Part w ∧ ∀ c ∈ w.head?, ¬ stops c) ∧
        next (passed s ws.flatten r []) = some t :=
    ⟨[], s.ahead, rfl, by simp, by rwa [List.flatten_nil, passed_nil]⟩
  induction bound with
  | zero => exact here
  | succ bound ih =>
      intro s h
      unfold repeatFrom prefer at h
      rw [if_neg Bool.false_ne_true] at h
      split at h
      · rename_i stopped
        exact here s (stopped.trans h)
      · rename_i none
        obtain ⟨w, r, ahead, part, e⟩ := each _ s h
        obtain ⟨ws, r', behind, later, e'⟩ := ih _ e
        have split : r = ws.flatten ++ r' := behind
        have goes : ∀ c ∈ w.head?, ¬ stops c := fun c hc stop => by
          cases w with
          | nil => cases hc
          | cons d w => exact found s c (by rw [ahead]; exact hc) stop none
        refine ⟨w :: ws, r', by rw [ahead, split, List.flatten_cons, List.append_assoc],
          List.forall_mem_cons.2 ⟨⟨part, goes⟩, later⟩, ?_⟩
        rwa [passed_passed] at e'

end LessonText.Pattern
