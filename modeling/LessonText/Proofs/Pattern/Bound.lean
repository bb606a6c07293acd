import LessonText.Proofs.Pattern.Direct

/-! # What a match depends on

A bound that is long enough makes no difference, and what follows a pattern matters only behind the texts
that the pattern describes.
-/

namespace LessonText.Pattern

open Progress

variable {bound bound' : Nat}

theorem prefer_congr {eager : Bool} {more more' stop stop' : Unit → Option Progress}
    (hm : more () = more' ()) (hs : stop () = stop' ()) : prefer eager more stop = prefer eager more' stop' := by
  unfold prefer
  rw [hm, hs]

theorem runFrom_congr {eager : Bool} {accepts : Char → Bool} {next next' : Progress → Option Progress}
    {gs : List (Nat × Text × Nat)} (ahead : Text) : ∀ before n,
      (∀ w r, ahead = w ++ r → (∀ c ∈ w, accepts c = true) →
        next (passed ⟨before, ahead, n, gs⟩ w r []) = next' (passed ⟨before, ahead, n, gs⟩ w r [])) →
      runFrom eager accepts next gs before ahead n = runFrom eager accepts next' gs before ahead n := by
  induction ahead with
  | nil =>
      intro before n h
      exact h [] [] rfl (by simp)
  | cons c rest ih =>
      intro before n h
      have here : next ⟨before, c :: rest, n, gs⟩ = next' ⟨before, c :: rest, n, gs⟩ := h [] _ rfl (by simp)
      unfold runFrom
      split
      · rename_i hc
        refine prefer_congr (ih (some c) (n + 1) fun w r split hw => ?_) here
        have there := h (c :: w) r (congrArg (c :: ·) split) (by simpa [hc] using hw)
        rwa [passed_cons ⟨before, c :: rest, n, gs⟩ c w r rest] at there
      · exact here

theorem repeatFrom_stop {eager : Bool} {body : (Progress → Option Progress) → Progress → Option Progress}
    {next : Progress → Option Progress} {s : Progress} (h : ∀ k, body k s = none) (limit : Nat) :
    repeatFrom eager body next limit s = next s := by
  cases limit with
  | zero => rfl
  | succ limit =>
      rw [repeatFrom, h]
      cases eager <;> cases next s <;> simp [prefer]

theorem repeatFrom_congr {eager : Bool} {p : Pattern} (advances : p.Advances)
    {body body' : (Progress → Option Progress) → Progress → Option Progress}
    {next next' : Progress → Option Progress}
    (stops : ∀ s, s.ahead = [] → (∀ k, body k s = none) ∧ ∀ k, body' k s = none)
    (hbody : ∀ k k' s, s.ahead.length ≤ bound → s.ahead.length ≤ bound' →
      (∀ w r gs raw, s.ahead = w ++ r → p.Takes s.before w r gs → k (passed s w r raw) = k' (passed s w r raw)) →
      body k s = body' k' s) :
    ∀ limit limit' s, s.ahead.length ≤ limit → s.ahead.length ≤ limit' → s.ahead.length ≤ bound →
      s.ahead.length ≤ bound' →
      (∀ w r gs raw, s.ahead = w ++ r → Repeats p.Takes s.before w r gs →
        next (passed s w r raw) = next' (passed s w r raw)) →
      repeatFrom eager body next limit s = repeatFrom eager body' next' limit' s := by
  intro limit
  induction limit with
  | zero =>
      intro limit' s short _ _ _ h
      have none := stops s (List.length_eq_zero_iff.1 (Nat.le_zero.1 short))
      have here := h [] s.ahead [] [] rfl .stop
      rw [passed_nil] at here
      rwa [repeatFrom_stop none.1, repeatFrom_stop none.2]
  | succ limit ih =>
      intro limit' s _ le' inside inside' h
      have here := h [] s.ahead [] [] rfl .stop
      rw [passed_nil] at here
      cases limit' with
      | zero =>
          have none := stops s (List.length_eq_zero_iff.1 (Nat.le_zero.1 le'))
          rwa [repeatFrom_stop none.1, repeatFrom_stop none.2]
      | succ limit' =>
          refine prefer_congr (hbody _ _ s inside inside' fun w r gs raw split takes => ?_) here
          have pos := List.length_pos_iff.2 (advances _ _ _ _ takes)
          rw [split, List.length_append] at inside inside' le'
          have le : (w ++ r).length ≤ limit + 1 := by rwa [← split]
          rw [List.length_append] at le
          refine ih limit' (passed s w r raw) ?_ ?_ ?_ ?_ fun w' r' gs' raw' split' later => ?_
          · exact show r.length ≤ limit by omega
          · exact show r.length ≤ limit' by omega
          · exact show r.length ≤ bound by omega
          · exact show r.length ≤ bound' by omega
          · rw [passed_passed]
            have behind : r = w' ++ r' := split'
            exact h (w ++ w') r' (gs' ++ gs) _ (by rw [split, behind, List.append_assoc])
              (.more (behind ▸ takes) later)

/-- What a direct pattern finds does not depend on the bound, and only on what follows it behind a text of
    the pattern. -/
theorem attempt_congr {p : Pattern} (direct : p.Direct) : ∀ {next next' : Progress → Option Progress} s,
    s.ahead.length ≤ bound → s.ahead.length ≤ bound' →
    (∀ w r gs raw, s.ahead = w ++ r → p.Takes s.before w r gs →
      next (passed s w r raw) = next' (passed s w r raw)) →
    p.attempt bound next s = p.attempt bound' next' s := by
  have nothing {p : Pattern} {next next' : Progress → Option Progress} {s : Progress}
      (takes : p.Takes s.before [] s.ahead []) (h : ∀ w r gs raw, s.ahead = w ++ r → p.Takes s.before w r gs →
        next (passed s w r raw) = next' (passed s w r raw)) : next s = next' s := by
    have here := h [] s.ahead [] [] rfl takes
    rwa [passed_nil] at here
  induction p with
  | empty =>
      intro next next' s _ _ h
      exact nothing (p := .empty) ⟨rfl, rfl⟩ h
  | one accepts =>
      intro next next' s _ _ h
      unfold attempt
      split
      · rfl
      · rename_i c rest split
        split
        · rename_i hc
          exact h [c] rest [] [] split ⟨c, hc, rfl, rfl⟩
        · rfl
  | span accepts =>
      intro next next' s _ _ h
      unfold attempt
      split
      · rename_i split
        exact nothing (p := .span accepts) ⟨by simp, by simp [split], rfl⟩ h
      · rename_i c rest split
        split
        · rename_i hc
          obtain ⟨w, r, rfl, hw, hr⟩ := exists_span accepts rest
          have there := h (c :: w) r [] [] split ⟨by simpa [hc] using hw, hr, rfl⟩
          rwa [passed_cons s c w r (w ++ r), ← spanFrom_eq s.groups hr c (s.passed + 1) hw] at there
        · rename_i hc
          exact nothing (p := .span accepts) ⟨by simp, by simpa [split] using hc, rfl⟩ h
  | run eager accepts =>
      intro next next' s _ _ h
      exact runFrom_congr s.ahead s.before s.passed fun w r split hw => h w r [] [] split ⟨hw, rfl⟩
  | seq first second hf hs =>
      intro next next' s inside inside' h
      refine hf direct.1 s inside inside' fun w r gs raw split takes => ?_
      rw [split, List.length_append] at inside inside'
      refine hs direct.2 (passed s w r raw) ?_ ?_ fun w' r' gs' raw' split' takes' => ?_
      · exact show r.length ≤ bound by omega
      · exact show r.length ≤ bound' by omega
      · rw [passed_passed]
        have behind : r = w' ++ r' := split'
        exact h (w ++ w') r' (gs' ++ gs) _ (by rw [split, behind, List.append_assoc])
          ⟨w, w', gs, gs', rfl, rfl, behind ▸ takes, takes'⟩
  | alt first second hf hs =>
      intro next next' s inside inside' h
      exact prefer_congr (hf direct.1 s inside inside' fun w r gs raw split takes => h w r gs raw split (.inl takes))
        (hs direct.2 s inside inside' fun w r gs raw split takes => h w r gs raw split (.inr takes))
  | many eager body hb =>
      intro next next' s inside inside' h
      have stops {limit : Nat} {s : Progress} (end_ : s.ahead = []) (k : Progress → Option Progress) :
          body.attempt limit k s = none := by
        rw [← Option.not_isSome_iff_eq_none, Option.isSome_iff_exists]
        rintro ⟨t, found⟩
        obtain ⟨w, r, gs, split, takes, -⟩ := attempt_takes _ _ _ _ _ found
        rw [end_] at split
        exact direct.2 _ _ _ _ takes (List.append_eq_nil_iff.1 split.symm).1
      exact repeatFrom_congr direct.2 (fun s end_ => ⟨stops end_, stops end_⟩)
        (fun k k' s inside inside' same => hb direct.1 s inside inside' same) bound bound' s inside inside' inside
        inside' h
  | group index body hb =>
      intro next next' s inside inside' h
      exact hb direct s inside inside' fun w r gs raw split takes =>
        h w r _ ((index, s.ahead, (passed s w r raw).passed - s.passed) :: raw) split ⟨gs, takes, rfl⟩
  | place holds =>
      intro next next' s _ _ h
      unfold attempt
      split
      · rename_i hh
        exact nothing (p := .place holds) ⟨rfl, hh, rfl⟩ h
      · rfl
  | ahead wanted body => exact direct.elim

theorem matchAt_bound {p : Pattern} (direct : p.Direct) {b : Option Char} {t : Text}
    (inside : t.length ≤ bound) (inside' : t.length ≤ bound') :
    p.matchAt bound 0 b t = p.matchAt bound' 0 b t := by
  simp only [matchAt]
  rw [attempt_congr direct ⟨b, t, 0, []⟩ inside inside' fun _ _ _ _ _ _ => rfl]

end LessonText.Pattern
