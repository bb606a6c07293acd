import Mathlib.Data.List.Forall2
import LessonText.Pattern.Class
import LessonText.Pattern.Reach

/-! # What a match is made of

`p.Takes b w r gs` says that `w` is made as `p` describes, with the character `b` before it, the text
`r` after it, and the groups `gs` closed in it, the latest first. It forgets the order of attempts and
what a pattern looks for ahead. Every match is of this kind.
-/

namespace LessonText

theorem Match.group_eq {m : Match} {gs : List (Nat × Text)} (h : m.groups = gs) {i : Nat} :
    m.group i = (gs.lookup i).getD [] := by
  rw [Match.group, Match.group?, h]

namespace Pattern

/-- Any number of texts of one kind, one after another. -/
inductive Repeats (takes : Option Char → Text → Text → List (Nat × Text) → Prop) :
    Option Char → Text → Text → List (Nat × Text) → Prop where
  | stop {b r} : Repeats takes b [] r []
  | more {b w w' r gs gs'} : takes b w (w' ++ r) gs → Repeats takes (w.getLast?.or b) w' r gs' →
      Repeats takes b (w ++ w') r (gs' ++ gs)

def Takes : Pattern → Option Char → Text → Text → List (Nat × Text) → Prop
  | .empty, _, w, _, gs => w = [] ∧ gs = []
  | .one accepts, _, w, _, gs => ∃ c, accepts c = true ∧ w = [c] ∧ gs = []
  | .span accepts, _, w, r, gs =>
      (∀ c ∈ w, accepts c = true) ∧ (∀ c ∈ r.head?, accepts c = false) ∧ gs = []
  | .run _ accepts, _, w, _, gs => (∀ c ∈ w, accepts c = true) ∧ gs = []
  | .seq p q, b, w, r, gs => ∃ w₁ w₂ gs₁ gs₂, w = w₁ ++ w₂ ∧ gs = gs₂ ++ gs₁ ∧
      p.Takes b w₁ (w₂ ++ r) gs₁ ∧ q.Takes (w₁.getLast?.or b) w₂ r gs₂
  | .alt p q, b, w, r, gs => p.Takes b w r gs ∨ q.Takes b w r gs
  | .many _ p, b, w, r, gs => Repeats p.Takes b w r gs
  | .group i p, b, w, r, gs => ∃ gs', p.Takes b w r gs' ∧ gs = (i, w) :: gs'
  | .place holds, b, w, r, gs => w = [] ∧ holds b r = true ∧ gs = []
  | .ahead _ _, _, w, _, gs => w = [] ∧ gs = []

/-- The index and the text of a group that an attempt has recorded. -/
def recorded (g : Nat × Text × Nat) : Nat × Text := (g.1, g.2.1.take g.2.2)

/-- The place after passing `w` from `s` with `rest` ahead and the groups `gs` closed on the way. -/
def passed (s : Progress) (w rest : Text) (gs : List (Nat × Text × Nat)) : Progress :=
  ⟨w.getLast?.or s.before, rest, s.passed + w.length, gs ++ s.groups⟩

theorem passed_nil (s : Progress) : passed s [] s.ahead [] = s := by
  simp [passed]

theorem passed_passed (s : Progress) (w w' r r' : Text) (gs gs' : List (Nat × Text × Nat)) :
    passed (passed s w r gs) w' r' gs' = passed s (w ++ w') r' (gs' ++ gs) := by
  simp [passed, List.getLast?_append, Option.or_assoc, Nat.add_assoc]

theorem passed_cons (s : Progress) (c : Char) (w r ahead : Text) :
    passed s (c :: w) r [] = passed ⟨some c, ahead, s.passed + 1, s.groups⟩ w r [] :=
  (passed_passed s [c] w ahead r [] []).symm

theorem exists_span (accepts : Char → Bool) (t : Text) : ∃ w r, t = w ++ r ∧
    (∀ c ∈ w, accepts c = true) ∧ ∀ c ∈ r.head?, accepts c = false := by
  induction t with
  | nil => exact ⟨[], [], by simp⟩
  | cons c t ih =>
      by_cases hc : accepts c
      · obtain ⟨w, r, rfl, hw, hr⟩ := ih
        exact ⟨c :: w, r, rfl, by simpa [hc] using hw, hr⟩
      · exact ⟨[], c :: t, rfl, by simp, by simpa using hc⟩

theorem spanFrom_eq {accepts : Char → Bool} (gs : List (Nat × Text × Nat)) {w r : Text}
    (hr : ∀ c ∈ r.head?, accepts c = false) : ∀ last n, (∀ c ∈ w, accepts c = true) →
      spanFrom accepts gs last (w ++ r) n = passed ⟨some last, w ++ r, n, gs⟩ w r [] := by
  induction w with
  | nil =>
      intro last n _
      cases r with
      | nil => rfl
      | cons c r =>
          have hc : accepts c = false := hr c rfl
          simp [spanFrom, hc, passed]
  | cons c w ih =>
      intro last n hw
      obtain ⟨hc, hw⟩ := List.forall_mem_cons.1 hw
      rw [List.cons_append, spanFrom, if_pos hc, ih c (n + 1) hw]
      exact (passed_cons ⟨some last, c :: (w ++ r), n, gs⟩ c w r _).symm

theorem runFrom_takes {eager : Bool} {accepts : Char → Bool} {next : Progress → Option Progress}
    {gs : List (Nat × Text × Nat)} {t : Progress} (rest : Text) : ∀ before n,
      runFrom eager accepts next gs before rest n = some t →
      ∃ w r, rest = w ++ r ∧ (∀ c ∈ w, accepts c = true) ∧
        next (passed ⟨before, rest, n, gs⟩ w r []) = some t := by
  induction rest with
  | nil => exact fun before n h => ⟨[], [], rfl, by simp, by simpa [passed, runFrom] using h⟩
  | cons c rest ih =>
      intro before n h
      have here (h : next ⟨before, c :: rest, n, gs⟩ = some t) : ∃ w r, c :: rest = w ++ r ∧
          (∀ c ∈ w, accepts c = true) ∧
          next (passed ⟨before, c :: rest, n, gs⟩ w r []) = some t :=
        ⟨[], c :: rest, rfl, by simp, by simpa [passed] using h⟩
      unfold runFrom at h
      split at h
      · rename_i hc
        rcases prefer_eq_some h with h | h
        · obtain ⟨w, r, rfl, hw, e⟩ := ih (some c) (n + 1) h
          refine ⟨c :: w, r, rfl, by simpa [hc] using hw, ?_⟩
          rw [← e]
          exact congrArg next (passed_cons ⟨before, c :: (w ++ r), n, gs⟩ c w r _)
        · exact here h
      · exact here h

theorem repeatFrom_takes {eager : Bool} {takes : Option Char → Text → Text → List (Nat × Text) → Prop}
    {body : (Progress → Option Progress) → Progress → Option Progress}
    {next : Progress → Option Progress} {t : Progress}
    (hbody : ∀ next s, body next s = some t → ∃ w r gs, s.ahead = w ++ r ∧
      takes s.before w r (gs.map recorded) ∧ next (passed s w r gs) = some t) (bound : Nat) :
    ∀ s, repeatFrom eager body next bound s = some t → ∃ w r gs, s.ahead = w ++ r ∧
      Repeats takes s.before w r (gs.map recorded) ∧ next (passed s w r gs) = some t := by
  have here (s : Progress) (h : next s = some t) : ∃ w r gs, s.ahead = w ++ r ∧
      Repeats takes s.before w r (gs.map recorded) ∧ next (passed s w r gs) = some t :=
    ⟨[], s.ahead, [], rfl, .stop, by simpa [passed_nil] using h⟩
  induction bound with
  | zero => exact here
  | succ bound ih =>
      intro s h
      unfold repeatFrom at h
      rcases prefer_eq_some h with h | h
      · obtain ⟨w, r, gs, hw, ht, e⟩ := hbody _ s h
        obtain ⟨w', r', gs', hw', ht', e'⟩ := ih _ e
        have split : r = w' ++ r' := hw'
        refine ⟨w ++ w', r', gs' ++ gs, by rw [hw, split, List.append_assoc], ?_, ?_⟩
        · rw [List.map_append]
          exact .more (split ▸ ht) ht'
        · rwa [passed_passed] at e'
      · exact here s h

/-- An attempt that succeeds has passed a text that the pattern describes. -/
theorem attempt_takes (bound : Nat) (p : Pattern) :
    ∀ (next : Progress → Option Progress) s t, p.attempt bound next s = some t →
      ∃ w r gs, s.ahead = w ++ r ∧ p.Takes s.before w r (gs.map recorded) ∧
        next (passed s w r gs) = some t := by
  have none {p : Pattern} {next : Progress → Option Progress} {s t : Progress}
      (hp : p.Takes s.before [] s.ahead []) (h : next s = some t) : ∃ w r gs, s.ahead = w ++ r ∧
      p.Takes s.before w r (gs.map recorded) ∧ next (passed s w r gs) = some t :=
    ⟨[], s.ahead, [], rfl, hp, by rwa [passed_nil]⟩
  induction p with
  | empty => exact fun next s t h => none ⟨rfl, rfl⟩ h
  | one accepts =>
      intro next s t h
      unfold attempt at h
      split at h
      · cases h
      · rename_i c rest hs
        split at h
        · rename_i hc
          exact ⟨[c], rest, [], hs, ⟨c, hc, rfl, rfl⟩, by simpa [passed, Progress.step] using h⟩
        · cases h
  | span accepts =>
      intro next s t h
      unfold attempt at h
      split at h
      · rename_i hs
        exact none ⟨by simp, by simp [hs], rfl⟩ h
      · rename_i c rest hs
        split at h
        · rename_i hc
          obtain ⟨w, r, rfl, hw, hr⟩ := exists_span accepts rest
          have e := spanFrom_eq s.groups hr c (s.passed + 1) hw
          refine ⟨c :: w, r, [], hs, ⟨by simpa [hc] using hw, hr, rfl⟩, ?_⟩
          rw [e] at h
          rw [← h]
          exact congrArg next (passed_cons s c w r (w ++ r))
        · rename_i hc
          exact none ⟨by simp, by simpa [hs] using hc, rfl⟩ h
  | run eager accepts =>
      intro next s t h
      obtain ⟨w, r, hw, ha, e⟩ := runFrom_takes s.ahead s.before s.passed h
      exact ⟨w, r, [], hw, ⟨ha, rfl⟩, e⟩
  | seq first second hf hs =>
      intro next s t h
      obtain ⟨w, r, gs, hw, ht, e⟩ := hf _ s t h
      obtain ⟨w', r', gs', hw', ht', e'⟩ := hs _ _ t e
      have split : r = w' ++ r' := hw'
      refine ⟨w ++ w', r', gs' ++ gs, by rw [hw, split, List.append_assoc], ?_, ?_⟩
      · exact ⟨w, w', gs.map recorded, gs'.map recorded, rfl, List.map_append, split ▸ ht, ht'⟩
      · rwa [passed_passed] at e'
  | alt first second hf hs =>
      intro next s t h
      rcases prefer_eq_some h with h | h
      · obtain ⟨w, r, gs, hw, ht, e⟩ := hf _ s t h
        exact ⟨w, r, gs, hw, .inl ht, e⟩
      · obtain ⟨w, r, gs, hw, ht, e⟩ := hs _ s t h
        exact ⟨w, r, gs, hw, .inr ht, e⟩
  | many eager body hb =>
      intro next s t h
      exact repeatFrom_takes (fun next s h => hb next s t h) bound s h
  | group index body hb =>
      intro next s t h
      obtain ⟨w, r, gs, hw, ht, e⟩ := hb _ s t h
      refine ⟨w, r, (index, s.ahead, w.length) :: gs, hw, ⟨_, ht, ?_⟩, ?_⟩
      · simp [recorded, hw]
      · simpa [passed, Progress.close] using e
  | place holds =>
      intro next s t h
      unfold attempt at h
      split at h
      · rename_i hh
        exact none ⟨rfl, hh, rfl⟩ h
      · cases h
  | ahead wanted body =>
      intro next s t h
      unfold attempt at h
      split at h
      · exact none ⟨rfl, rfl⟩ h
      · cases h

/-- A match is a text that the pattern describes, at the start of the text ahead. -/
theorem matchAt_takes {bound least : Nat} {p : Pattern} {before : Option Char} {ahead : Text}
    {m : Match} {n : Nat} (h : p.matchAt bound least before ahead = some (m, n)) :
    ∃ rest, ahead = m.text ++ rest ∧ n = m.text.length ∧ least ≤ n ∧
      p.Takes before m.text rest m.groups := by
  unfold matchAt at h
  obtain ⟨s, hs, hm⟩ := Option.map_eq_some_iff.1 h
  obtain ⟨w, r, gs, hw, ht, e⟩ := attempt_takes bound p _ _ s hs
  have ahead_eq : ahead = w ++ r := hw
  split at e
  · rename_i hl
    cases e
    cases hm
    have length : (passed ⟨before, ahead, 0, []⟩ w r gs).passed = w.length := by simp [passed]
    rw [length] at hl
    refine ⟨r, ?_, ?_, by simpa [length] using hl, ?_⟩
    · simp [passed, ahead_eq]
    · simp [passed, ahead_eq]
    · change p.Takes before (ahead.take (passed ⟨before, ahead, 0, []⟩ w r gs).passed) r
        ((gs ++ []).map recorded)
      rwa [length, List.append_nil, ahead_eq, List.take_left]
  · cases e

/-- A match that passes a text is this text. -/
theorem matchAt_found {bound least : Nat} {p : Pattern} {before : Option Char} {w t : Text} {m : Match}
    (h : p.matchAt bound least before (w ++ t) = some (m, w.length)) : m.text = w ∧ p.Takes before m.text t m.groups := by
  obtain ⟨rest, split, length, -, takes⟩ := matchAt_takes h
  obtain ⟨rfl, rfl⟩ := List.append_inj split length
  exact ⟨rfl, takes⟩

/-- A character that a match of the pattern may hold. -/
def admits (c : Char) : Pattern → Bool
  | .one accepts | .span accepts | .run _ accepts => accepts c
  | .seq p q | .alt p q => p.admits c || q.admits c
  | .many _ p | .group _ p => p.admits c
  | .empty | .place _ | .ahead _ _ => false

theorem Takes.admits {c : Char} {p : Pattern} : ∀ {b w r gs}, p.Takes b w r gs → c ∈ w →
    p.admits c = true := by
  induction p with
  | one accepts =>
      rintro b w r gs ⟨d, hd, rfl, -⟩ hc
      rwa [List.mem_singleton.1 hc]
  | span accepts => exact fun h hc => h.1 _ hc
  | run eager accepts => exact fun h hc => h.1 _ hc
  | seq p q hp hq =>
      rintro b w r gs ⟨w₁, w₂, gs₁, gs₂, rfl, -, h₁, h₂⟩ hc
      rw [Pattern.admits, Bool.or_eq_true]
      rcases List.mem_append.1 hc with hc | hc
      · exact .inl (hp h₁ hc)
      · exact .inr (hq h₂ hc)
  | alt p q hp hq =>
      rintro b w r gs (h | h) hc
      · exact Bool.or_eq_true_iff.2 (.inl (hp h hc))
      · exact Bool.or_eq_true_iff.2 (.inr (hq h hc))
  | many eager p hp =>
      intro b w r gs h hc
      have each : Repeats p.Takes b w r gs := h
      induction each with
      | stop => cases hc
      | more first later ih =>
          rcases List.mem_append.1 hc with hc | hc
          · exact hp first hc
          · exact ih later hc
  | group i p hp =>
      rintro b w r gs ⟨gs', h, -⟩ hc
      exact hp h hc
  | empty | place | ahead =>
      intro b w r gs h hc
      rw [h.1] at hc
      cases hc

/-- A pattern that remembers nothing. -/
def groupless : Pattern → Bool
  | .seq p q | .alt p q => p.groupless && q.groupless
  | .many _ p => p.groupless
  | .group _ _ => false
  | .empty | .one _ | .span _ | .run _ _ | .place _ | .ahead _ _ => true

theorem Takes.groups_eq_nil {p : Pattern} (hp : p.groupless = true) : ∀ {b w r gs},
    p.Takes b w r gs → gs = [] := by
  induction p with
  | one accepts =>
      rintro b w r gs ⟨c, -, -, rfl⟩
      rfl
  | span accepts => exact fun h => h.2.2
  | run eager accepts => exact fun h => h.2
  | seq p q ihp ihq =>
      obtain ⟨hp, hq⟩ := Bool.and_eq_true_iff.1 hp
      rintro b w r gs ⟨w₁, w₂, gs₁, gs₂, -, rfl, h₁, h₂⟩
      rw [ihp hp h₁, ihq hq h₂]
      rfl
  | alt p q ihp ihq =>
      obtain ⟨hp, hq⟩ := Bool.and_eq_true_iff.1 hp
      rintro b w r gs (h | h)
      · exact ihp hp h
      · exact ihq hq h
  | many eager p ih =>
      intro b w r gs h
      have each : Repeats p.Takes b w r gs := h
      induction each with
      | stop => rfl
      | more first later ihr => rw [ih hp first, ihr later, List.append_nil]
  | group i p => cases hp
  | empty => exact fun h => h.2
  | place holds => exact fun h => h.2.2
  | ahead wanted p => exact fun h => h.2

/-! ## Texts of derived patterns -/

variable {b : Option Char} {w r : Text} {gs : List (Nat × Text)}

@[simp] theorem takes_empty : empty.Takes b w r gs ↔ w = [] ∧ gs = [] := .rfl

@[simp] theorem takes_one {accepts : Char → Bool} :
    (one accepts).Takes b w r gs ↔ ∃ c, accepts c = true ∧ w = [c] ∧ gs = [] := .rfl

@[simp] theorem takes_span {accepts : Char → Bool} : (span accepts).Takes b w r gs ↔
    (∀ c ∈ w, accepts c = true) ∧ (∀ c ∈ r.head?, accepts c = false) ∧ gs = [] := .rfl

@[simp] theorem takes_run {eager : Bool} {accepts : Char → Bool} :
    (run eager accepts).Takes b w r gs ↔ (∀ c ∈ w, accepts c = true) ∧ gs = [] := .rfl

@[simp] theorem takes_append {p q : Pattern} : (p ++ q).Takes b w r gs ↔
    ∃ w₁ w₂ gs₁ gs₂, w = w₁ ++ w₂ ∧ gs = gs₂ ++ gs₁ ∧
      p.Takes b w₁ (w₂ ++ r) gs₁ ∧ q.Takes (w₁.getLast?.or b) w₂ r gs₂ := .rfl

@[simp] theorem takes_or {p q : Pattern} :
    (p ||| q).Takes b w r gs ↔ p.Takes b w r gs ∨ q.Takes b w r gs := .rfl

@[simp] theorem takes_many {eager : Bool} {p : Pattern} :
    (many eager p).Takes b w r gs ↔ Repeats p.Takes b w r gs := .rfl

@[simp] theorem takes_group {i : Nat} {p : Pattern} :
    (group i p).Takes b w r gs ↔ ∃ gs', p.Takes b w r gs' ∧ gs = (i, w) :: gs' := .rfl

@[simp] theorem takes_place {holds : Option Char → Text → Bool} :
    (place holds).Takes b w r gs ↔ w = [] ∧ holds b r = true ∧ gs = [] := .rfl

@[simp] theorem takes_ahead {wanted : Bool} {p : Pattern} :
    (ahead wanted p).Takes b w r gs ↔ w = [] ∧ gs = [] := .rfl

@[simp] theorem takes_literal {t : Text} : (literal t).Takes b w r gs ↔ w = t ∧ gs = [] := by
  induction t generalizing b w gs with
  | nil => rfl
  | cons c t ih =>
      constructor
      · rintro ⟨w₁, w₂, gs₁, gs₂, rfl, rfl, ⟨d, hd, rfl, rfl⟩, ht⟩
        obtain ⟨rfl, rfl⟩ := ih.1 ht
        simpa using hd
      · rintro ⟨rfl, rfl⟩
        exact ⟨[c], t, [], [], rfl, rfl, ⟨c, by simp, rfl, rfl⟩, ih.2 ⟨rfl, rfl⟩⟩

@[simp] theorem takes_literalFold {t : Text} :
    (literalFold t).Takes b w r gs ↔ List.Forall₂ (fun c d => Unicode.sameLetter c d = true) t w ∧ gs = [] := by
  induction t generalizing b w gs with
  | nil =>
      rw [List.forall₂_nil_left_iff]
      rfl
  | cons c t ih =>
      constructor
      · rintro ⟨w₁, w₂, gs₁, gs₂, rfl, rfl, ⟨d, hd, rfl, rfl⟩, ht⟩
        obtain ⟨same, rfl⟩ := ih.1 ht
        exact ⟨.cons hd same, rfl⟩
      · rintro ⟨h, rfl⟩
        cases h with
        | @cons _ d _ w hd ht =>
            exact ⟨[d], w, [], [], rfl, rfl, ⟨d, hd, rfl, rfl⟩, ih.2 ⟨ht, rfl⟩⟩

@[simp] theorem takes_span1 {accepts : Char → Bool} : (span1 accepts).Takes b w r gs ↔
    w ≠ [] ∧ (∀ c ∈ w, accepts c = true) ∧ (∀ c ∈ r.head?, accepts c = false) ∧ gs = [] := by
  constructor
  · rintro ⟨w₁, w₂, gs₁, gs₂, rfl, rfl, ⟨d, hd, rfl, rfl⟩, hw, hr, rfl⟩
    exact ⟨by simp, by simpa [hd] using hw, hr, rfl⟩
  · rintro ⟨hne, hw, hr, rfl⟩
    obtain ⟨c, w, rfl⟩ := List.exists_cons_of_ne_nil hne
    rw [List.forall_mem_cons] at hw
    exact ⟨[c], w, [], [], rfl, rfl, ⟨c, hw.1, rfl, rfl⟩, hw.2, hr, rfl⟩

@[simp] theorem takes_some1 {accepts : Char → Bool} : (some1 accepts).Takes b w r gs ↔
    w ≠ [] ∧ (∀ c ∈ w, accepts c = true) ∧ gs = [] := by
  constructor
  · rintro ⟨w₁, w₂, gs₁, gs₂, rfl, rfl, ⟨d, hd, rfl, rfl⟩, hw, rfl⟩
    exact ⟨by simp, by simpa [hd] using hw, rfl⟩
  · rintro ⟨hne, hw, rfl⟩
    obtain ⟨c, w, rfl⟩ := List.exists_cons_of_ne_nil hne
    rw [List.forall_mem_cons] at hw
    exact ⟨[c], w, [], [], rfl, rfl, ⟨c, hw.1, rfl, rfl⟩, hw.2, rfl⟩

@[simp] theorem takes_few1 {accepts : Char → Bool} : (few1 accepts).Takes b w r gs ↔
    w ≠ [] ∧ (∀ c ∈ w, accepts c = true) ∧ gs = [] :=
  takes_some1

@[simp] theorem takes_most {accepts : Char → Bool} :
    (most accepts).Takes b w r gs ↔ (∀ c ∈ w, accepts c = true) ∧ gs = [] := .rfl

@[simp] theorem takes_fewest {accepts : Char → Bool} :
    (fewest accepts).Takes b w r gs ↔ (∀ c ∈ w, accepts c = true) ∧ gs = [] := .rfl

@[simp] theorem takes_optional {p : Pattern} :
    (optional p).Takes b w r gs ↔ p.Takes b w r gs ∨ w = [] ∧ gs = [] := .rfl

end Pattern

end LessonText
