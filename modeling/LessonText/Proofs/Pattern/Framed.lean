import LessonText.Proofs.Pattern.Applying
import LessonText.Proofs.Pattern.Bound

/-! # Matches in front of other text

A steady pattern finds the same matches in a text whether or not the text `z` stands behind it: no match
goes on into `z`, and whatever looks at the end of the text looks at the first character of `z` in the same
way. A rule with a steady pattern that matches nothing in `z` and in a text `a` in front makes of the text
between them what it makes of that text alone.
-/

namespace LessonText

namespace Pattern

open Progress

/-! ## A text behind -/

section Behind

variable {z y : Text} {total bound : Nat}

/-- Whether a pattern finds the same with `z` behind a text. `stuck` tells that what follows the pattern finds
    nothing once it has come to `z`, and the result tells that of the pattern together with what follows. -/
def steady (z : Text) : Pattern → Bool → Option Bool
  | .empty, stuck => some stuck
  | .one accepts, stuck =>
    if stuck || !z.head?.any accepts then some (stuck || !z.any accepts) else none
  | .span accepts, stuck | .run _ accepts, stuck =>
    if stuck || !z.head?.any accepts then some stuck else none
  | .seq p q, stuck => (q.steady z stuck).bind (p.steady z)
  | .alt p q, stuck => (p.steady z stuck).bind fun s => (q.steady z stuck).map (s && ·)
  | .many _ p, stuck => (p.steady z stuck).bind fun s => if s || !stuck then some stuck else none
  | .group _ p, stuck => p.steady z stuck
  | .place _, _ | .ahead _ _, _ => none

/-- What follows finds nothing once it has come to the end `y` of a text. -/
def Stops (y : Text) (next : Progress → Option Progress) : Prop := ∀ s, s.ahead <:+ y → next s = none

theorem prefer_none {eager : Bool} {more stop : Unit → Option Progress} (hm : more () = none) (hs : stop () = none) :
    prefer eager more stop = none := by
  cases eager <;> simp [prefer, hm, hs]

theorem runFrom_stops {eager : Bool} {accepts : Char → Bool} {next : Progress → Option Progress} (stops : Stops y next)
    {gs : List (Nat × Text × Nat)} (ahead : Text) : ∀ before n, ahead <:+ y →
      runFrom eager accepts next gs before ahead n = none := by
  induction ahead with
  | nil => exact fun before n h => stops _ h
  | cons c rest ih =>
      intro before n h
      have here : next ⟨before, c :: rest, n, gs⟩ = none := stops _ h
      unfold runFrom
      split
      · exact prefer_none (ih (some c) (n + 1) ((List.suffix_cons c rest).trans h)) here
      · exact here

theorem repeatFrom_stops {eager : Bool} {body : (Progress → Option Progress) → Progress → Option Progress}
    (hbody : ∀ next, Stops y next → Stops y (body next)) {next : Progress → Option Progress} (stops : Stops y next)
    (limit : Nat) : Stops y (repeatFrom eager body next limit) := by
  induction limit with
  | zero => exact stops
  | succ limit ih => exact fun s h => prefer_none (hbody _ ih s h) (stops s h)

/-- A steady pattern passes on that nothing is found. -/
theorem attempt_stops (inside : y <:+ z) {p : Pattern} : ∀ {stuck stuck' next}, p.steady z stuck = some stuck' →
    (stuck = true → Stops y next) → stuck' = true → Stops y (p.attempt bound next) := by
  induction p with
  | empty =>
      intro stuck stuck' next steady stops hs
      cases steady
      exact stops hs
  | one accepts =>
      intro stuck stuck' next steady stops hs s h
      rw [Pattern.steady, Option.ite_none_right_eq_some] at steady
      obtain ⟨-, rfl⟩ : _ ∧ (stuck || !z.any accepts) = stuck' := ⟨steady.1, Option.some.inj steady.2⟩
      unfold attempt
      split
      · rfl
      · rename_i c rest first
        rw [first] at h
        split
        · rename_i hc
          have mem : c ∈ z := (h.trans inside).subset List.mem_cons_self
          have held : stuck = true := by
            rcases Bool.or_eq_true_iff.1 hs with held | refused
            · exact held
            · have all : z.any accepts = false := by simpa using refused
              exact absurd hc (by simpa using List.any_eq_false.1 all c mem)
          exact stops held _ ((List.suffix_cons c rest).trans h)
        · rfl
  | span accepts =>
      intro stuck stuck' next steady stops hs s h
      rw [Pattern.steady, Option.ite_none_right_eq_some] at steady
      obtain ⟨w, r, split, hw, hr⟩ := exists_span accepts s.ahead
      rw [attempt_span split hw hr]
      refine stops ((Option.some.inj steady.2).trans hs) _ (List.IsSuffix.trans ?_ h)
      exact ⟨w, split.symm⟩
  | run eager accepts =>
      intro stuck stuck' next steady stops hs s h
      rw [Pattern.steady, Option.ite_none_right_eq_some] at steady
      exact runFrom_stops (stops ((Option.some.inj steady.2).trans hs)) s.ahead s.before s.passed h
  | seq p q hp hq =>
      intro stuck stuck' next steady stops hs
      obtain ⟨between, second, first⟩ := Option.bind_eq_some_iff.1 steady
      exact hp first (fun held => hq second stops held) hs
  | alt p q hp hq =>
      intro stuck stuck' next steady stops hs s h
      obtain ⟨a, first, rest⟩ := Option.bind_eq_some_iff.1 steady
      obtain ⟨b, second, both⟩ := Option.map_eq_some_iff.1 rest
      rw [← both, Bool.and_eq_true] at hs
      exact prefer_none (hp first stops hs.1 s h) (hq second stops hs.2 s h)
  | many eager p hp =>
      intro stuck stuck' next steady stops hs
      obtain ⟨a, body, rest⟩ := Option.bind_eq_some_iff.1 steady
      rw [Option.ite_none_right_eq_some] at rest
      have held : stuck = true := (Option.some.inj rest.2).trans hs
      have ha : a = true := by simpa [held] using rest.1
      exact repeatFrom_stops (fun next stops => hp body (fun _ => stops) ha) (stops held) bound
  | group index p hp =>
      intro stuck stuck' next steady stops hs s h
      exact hp steady (fun held t ht => stops held (t.close s index) ht) hs s h
  | place holds | ahead wanted p =>
      intro _ _ _ steady
      cases steady

/-- Two places as far on in two texts: behind the second, of `total` characters, there is nothing, behind the
    first there is `z`. -/
structure Longer (z : Text) (total : Nat) (s t : Progress) : Prop where
  ahead : s.ahead = t.ahead ++ z
  passed : s.passed = t.passed
  inside : t.passed + t.ahead.length = total
  groups : List.Forall₂ (fun g h : Nat × Text × Nat =>
    g.1 = h.1 ∧ g.2.1 = h.2.1 ++ z ∧ g.2.2 = h.2.2 ∧ h.2.2 ≤ h.2.1.length) s.groups t.groups

namespace Longer

variable {s t s' t' : Progress} {w r : Text}

theorem pass (h : Longer z total s t) (split : t.ahead = w ++ r) :
    Longer z total (Pattern.passed s w (r ++ z) []) (Pattern.passed t w r []) where
  ahead := rfl
  passed := congrArg (· + w.length) h.passed
  inside := by
    have := h.inside
    rw [split, List.length_append] at this
    show t.passed + w.length + r.length = total
    omega
  groups := h.groups

theorem close (opened : Longer z total s t) (h : Longer z total s' t') (index : Nat) :
    Longer z total (s'.close s index) (t'.close t index) where
  ahead := h.ahead
  passed := h.passed
  inside := h.inside
  groups := by
    have := opened.inside
    have := h.inside
    refine .cons ⟨rfl, opened.ahead, ?_, ?_⟩ h.groups
    · show s'.passed - s.passed = t'.passed - t.passed
      rw [h.passed, opened.passed]
    · show t'.passed - t.passed ≤ t.ahead.length
      omega

end Longer

theorem prefer_rel {eager : Bool} {more stop more' stop' : Unit → Option Progress} {R : Progress → Progress → Prop}
    (hm : Option.Rel R (more ()) (more' ())) (hs : Option.Rel R (stop ()) (stop' ())) :
    Option.Rel R (prefer eager more stop) (prefer eager more' stop') := by
  unfold prefer
  revert hm hs
  generalize more () = a, more' () = a', stop () = b, stop' () = b'
  intro hm hs
  cases eager <;> cases hm <;> cases hs <;> constructor <;> assumption

theorem runFrom_longer {eager : Bool} {accepts : Char → Bool} {stuck : Bool} {next next' : Progress → Option Progress}
    (steady : stuck = true ∨ z.head?.any accepts = false) (stops : stuck = true → Stops z next)
    (stops' : stuck = true → Stops [] next')
    (same : ∀ s t, Longer z total s t → Option.Rel (Longer z total) (next s) (next' t))
    {gs gs' : List (Nat × Text × Nat)} (ahead : Text) : ∀ before before' n,
      Longer z total ⟨before, ahead ++ z, n, gs⟩ ⟨before', ahead, n, gs'⟩ →
      Option.Rel (Longer z total) (runFrom eager accepts next gs before (ahead ++ z) n)
        (runFrom eager accepts next' gs' before' ahead n) := by
  induction ahead with
  | nil =>
      intro before before' n h
      rw [List.nil_append] at h ⊢
      rcases steady with held | refused
      · rw [runFrom_stops (stops held) _ _ _ List.suffix_rfl, runFrom_stops (stops' held) _ _ _ List.suffix_rfl]
        exact .none
      · have here := same _ _ h
        cases z with
        | nil => exact here
        | cons c z =>
            have hc : accepts c = false := refused
            simpa only [runFrom, hc, Bool.false_eq_true, if_false] using here
  | cons c rest ih =>
      intro before before' n h
      have here := same _ _ h
      rw [List.cons_append, runFrom, runFrom]
      split
      · exact prefer_rel (ih (some c) (some c) (n + 1) (h.pass (w := [c]) rfl)) here
      · exact here

/-- A steady pattern finds the same with `z` behind if what follows it does. -/
theorem attempt_longer {p : Pattern} : ∀ {stuck stuck' next next'}, p.steady z stuck = some stuck' →
    (stuck = true → Stops z next) → (stuck = true → Stops [] next') →
    (∀ s t, Longer z total s t → Option.Rel (Longer z total) (next s) (next' t)) →
    ∀ s t, Longer z total s t → Option.Rel (Longer z total) (p.attempt bound next s) (p.attempt bound next' t) := by
  induction p with
  | empty => exact fun _ _ _ same => same
  | one accepts =>
      intro stuck stuck' next next' steady stops _ same s t h
      rw [Pattern.steady, Option.ite_none_right_eq_some] at steady
      unfold attempt
      rw [h.ahead]
      cases first : t.ahead with
      | nil =>
          cases z with
          | nil => exact .none
          | cons c z =>
              dsimp only [List.nil_append]
              split
              · rename_i hc
                have held : stuck = true := by simpa [hc] using steady.1
                rw [stops held _ (List.suffix_cons c z)]
                exact .none
              · exact .none
      | cons c rest =>
          dsimp only [List.cons_append]
          split
          · exact same _ _ (h.pass (w := [c]) first)
          · exact .none
  | span accepts =>
      intro stuck stuck' next next' steady stops stops' same s t h
      rw [Pattern.steady, Option.ite_none_right_eq_some] at steady
      obtain ⟨w, r, split, hw, hr⟩ := exists_span accepts t.ahead
      rw [attempt_span split hw hr]
      cases r with
      | cons c r =>
          rw [attempt_span (r := c :: r ++ z) (by rw [h.ahead, split, List.append_assoc]) hw hr]
          exact same _ _ (h.pass split)
      | nil =>
          obtain ⟨v, r, rfl, hv, hr⟩ := exists_span accepts z
          have whole : s.ahead = (w ++ v) ++ r := by rw [h.ahead, split]; simp
          rw [attempt_span whole (fun c hc => (List.mem_append.1 hc).elim (hw c) (hv c)) hr]
          cases v with
          | nil =>
              rw [List.append_nil]
              exact same _ _ (h.pass split)
          | cons c v =>
              have held : stuck = true := by simpa [hv c List.mem_cons_self] using steady.1
              rw [stops held _ (List.suffix_append _ _), stops' held _ List.suffix_rfl]
              exact .none
  | run eager accepts =>
      intro stuck stuck' next next' steady stops stops' same s t h
      rw [Pattern.steady, Option.ite_none_right_eq_some, Bool.or_eq_true, Bool.not_eq_true'] at steady
      unfold attempt
      rw [h.ahead, h.passed]
      refine runFrom_longer steady.1 stops stops' same t.ahead s.before t.before t.passed ?_
      exact ⟨rfl, rfl, h.inside, h.groups⟩
  | seq p q hp hq =>
      intro stuck stuck' next next' steady stops stops' same
      obtain ⟨between, second, first⟩ := Option.bind_eq_some_iff.1 steady
      exact hp first (attempt_stops List.suffix_rfl second stops) (attempt_stops List.nil_suffix second stops')
        (hq second stops stops' same)
  | alt p q hp hq =>
      intro stuck stuck' next next' steady stops stops' same s t h
      obtain ⟨a, first, rest⟩ := Option.bind_eq_some_iff.1 steady
      obtain ⟨b, second, -⟩ := Option.map_eq_some_iff.1 rest
      exact prefer_rel (hp first stops stops' same s t h) (hq second stops stops' same s t h)
  | many eager p hp =>
      intro stuck stuck' next next' steady stops stops' same
      obtain ⟨a, body, rest⟩ := Option.bind_eq_some_iff.1 steady
      rw [Option.ite_none_right_eq_some] at rest
      have spreads (held : stuck = true) : a = true := by simpa [held] using rest.1
      have each (limit : Nat) : ∀ s t, Longer z total s t → Option.Rel (Longer z total)
          (repeatFrom eager (p.attempt bound) next limit s) (repeatFrom eager (p.attempt bound) next' limit t) := by
        induction limit with
        | zero => exact same
        | succ limit ih =>
            intro s t h
            refine prefer_rel (hp body (fun held => ?_) (fun held => ?_) ih s t h) (same s t h)
            · exact repeatFrom_stops (fun _ stops => attempt_stops List.suffix_rfl body (fun _ => stops) (spreads held))
                (stops held) limit
            · exact repeatFrom_stops (fun _ stops => attempt_stops List.nil_suffix body (fun _ => stops) (spreads held))
                (stops' held) limit
      exact each bound
  | group index p hp =>
      intro stuck stuck' next next' steady stops stops' same s t h
      exact hp steady (fun held u hu => stops held (u.close s index) hu)
        (fun held u hu => stops' held (u.close t index) hu) (fun u u' hu => same _ _ (h.close hu index)) s t h
  | place holds | ahead wanted p =>
      intro _ _ _ _ steady
      cases steady

/-- A steady pattern matches the same in a text with `z` behind. -/
theorem matchAt_longer {p : Pattern} (direct : p.Direct) (steady : (p.steady z false).isSome = true)
    {b b' : Option Char} {t : Text} {bound' : Nat} (inside : (t ++ z).length ≤ bound) (inside' : t.length ≤ bound') :
    p.matchAt bound 0 b (t ++ z) = p.matchAt bound' 0 b' t := by
  obtain ⟨stuck, steady⟩ := Option.isSome_iff_exists.1 steady
  rw [List.length_append] at inside
  rw [matchAt_bound direct inside' (show t.length ≤ bound by omega)]
  have found : Option.Rel (Longer z t.length) (p.attempt bound some ⟨b, t ++ z, 0, []⟩)
      (p.attempt bound some ⟨b', t, 0, []⟩) :=
    attempt_longer steady (absurd · Bool.false_ne_true) (absurd · Bool.false_ne_true) (fun _ _ h => .some h) _ _
      ⟨rfl, rfl, Nat.zero_add _, .nil⟩
  simp only [matchAt, Nat.zero_le, if_true]
  revert found
  generalize p.attempt bound some ⟨b, t ++ z, 0, []⟩ = f, p.attempt bound some ⟨b', t, 0, []⟩ = f'
  intro found
  cases found with
  | none => rfl
  | @some s s' h =>
      have within : s'.passed ≤ t.length := by
        have inside : s'.passed + s'.ahead.length = t.length := h.inside
        omega
      have groups : s.groups.map recorded = s'.groups.map recorded := by
        refine List.forall₂_eq_eq_eq ▸ List.forall₂_map_left_iff.2 (List.forall₂_map_right_iff.2 ?_)
        refine h.groups.imp fun g g' same => ?_
        obtain ⟨index, start, length, le⟩ := same
        rw [recorded, recorded, index, start, length, List.take_append_of_le_length le]
      have whole : (t ++ z).take s.passed = t.take s'.passed := by rw [h.passed, List.take_append_of_le_length within]
      change some ((⟨(t ++ z).take s.passed, s.groups.map recorded⟩, s.passed) : Match × Nat) =
        some (⟨t.take s'.passed, s'.groups.map recorded⟩, s'.passed)
      rw [whole, groups, h.passed]

end Behind

/-- A pattern that matches nothing in `a` in front and in `z` behind, and goes over neither edge. -/
structure Frames (p : Pattern) (a z : Text) : Prop where
  direct : p.Direct
  advances : p.Advances
  steady : (p.steady z false).isSome = true
  front : ∀ t, p.Passes none a t
  back : ∀ b, p.Passes b z []

end Pattern

theorem Piece.assembleM_append_plain {α : Type} (replace : α → Rendering Text) (ps : List (Piece α)) (z : Text) :
    assembleM replace (ps ++ z.map .plain) = (· ++ z) <$> assembleM replace ps := by
  have all : assembleM replace (z.map .plain ++ []) = _ := assembleM_plain replace
  rw [List.append_nil, assembleM, map_pure, List.append_nil] at all
  rw [assembleM_append, all]
  simp

namespace Rule

variable {r : Rule} {a z : Text}

theorem applyFrom_behind (frames : r.pattern.Frames a z) (t : Text) {bound bound' : Nat} (b b' : Option Char)
    (inside : (t ++ z).length ≤ bound) (inside' : t.length ≤ bound') :
    r.applyFrom bound b (t ++ z) = (· ++ z) <$> r.applyFrom bound' b' t := by
  have back (b : Option Char) : Text.cutFrom (r.pattern.matchAt bound 0) (r.pattern.matchAt bound 1) 0 b z =
      z.map .plain := by
    have all : Text.cutFrom (r.pattern.matchAt bound 0) (r.pattern.matchAt bound 1) 0 b (z ++ []) = _ :=
      Pattern.cutFrom_passes (frames.back b)
    rwa [List.append_nil, Text.cutFrom, frames.advances.misses_nil.matchAt, List.append_nil] at all
  rw [applyFrom, applyFrom, ← Piece.assembleM_append_plain]
  rw [Text.cutFrom_append (frames.advances.matchAt _ _) (fun u _ hu b b' => ?_) b b', back]
  have le := hu.length_le
  rw [List.length_append] at inside
  exact Pattern.matchAt_longer frames.direct frames.steady (by rw [List.length_append]; omega) (by omega)

/-- Between the parts of its frame a rule makes of a text what it makes of the text alone. -/
theorem apply_framed (frames : r.pattern.Frames a z) (t : Text) :
    r.apply (a ++ t ++ z) = (a ++ · ++ z) <$> r.apply t := by
  have inside : (t ++ z).length ≤ (a ++ t ++ z).length := by
    simp only [List.length_append]
    omega
  have behind := applyFrom_behind frames t (a.getLast?.or none) none inside (Nat.le_refl _)
  rw [apply_eq, apply_eq, List.append_assoc, applyFrom_passes (frames.front (t ++ z)), ← List.append_assoc, behind,
    Functor.map_map]
  simp only [List.append_assoc]

theorem foldlM_framed {rules : List Rule} (frames : ∀ r ∈ rules, r.pattern.Frames a z) (t : Text) :
    rules.foldlM (fun t r => r.apply t) (a ++ t ++ z) = (a ++ · ++ z) <$> rules.foldlM (fun t r => r.apply t) t := by
  induction rules generalizing t with
  | nil => rfl
  | cons r rules ih =>
      obtain ⟨here, later⟩ := List.forall_mem_cons.1 frames
      rw [List.foldlM_cons, List.foldlM_cons, apply_framed here, bind_map_left, map_bind]
      exact congrArg (r.apply t >>= ·) (funext fun u => ih later u)

end Rule

end LessonText
