import LessonText.Text.Basic

/-! # Words that must not occur

A hazard is the shape of words that must not stand anywhere in a text. A watch reads the text from the
left and keeps how far each word that has begun has come. The less has begun, the safer the text is, so
a part of a text may be replaced when the replacement completes no word and begins none that the part
it replaces did not begin.
-/

namespace LessonText

/-- One letter of a class, or any number of them. -/
structure Hazard.Part (α : Type) where
  many : Bool
  accepts : α → Bool

/-- The shape of words that must not occur. -/
abbrev Hazard (α : Type) := List (Hazard.Part α)

namespace Hazard

variable {α : Type}

/-- How far a word may have come after a letter, of which the parts from `i` on were missing. -/
def after : Hazard α → Nat → α → List Nat
  | [], _, _ => []
  | ⟨false, accepts⟩ :: _, i, a => if accepts a then [i + 1] else []
  | ⟨true, accepts⟩ :: rest, i, a =>
    if accepts a then i :: after rest (i + 1) a else after rest (i + 1) a

/-- How far the begun words, and a word that begins with the letter, may have come after it. -/
def step (h : Hazard α) (begun : List Nat) (a : α) : List Nat :=
  (0 :: begun).flatMap fun i => after (h.drop i) i a

/-- How far words have come when a text has been read. -/
def reach (h : Hazard α) (begun : List Nat) (t : List α) : List Nat := t.foldl (step h) begun

/-- A word that has come so far is complete. -/
def complete (h : Hazard α) (i : Nat) : Bool := (h.drop i).all Part.many

/-- No word is completed while a text is read. -/
def safe (h : Hazard α) : List Nat → List α → Bool
  | _, [] => true
  | begun, a :: t => !(step h begun a).any (complete h) && safe h (step h begun a) t

/-- However far a word can have come in the parts from `i` on. -/
def placesFrom : Hazard α → Nat → List Nat
  | [], _ => []
  | p :: rest, i => (if p.many then i else i + 1) :: placesFrom rest (i + 1)

/-- However far a word can have come. -/
def anywhere (h : Hazard α) : List Nat := placesFrom h 0

variable {h : Hazard α} {S T : List Nat}

theorem step_mono (sub : S ⊆ T) (a : α) : step h S a ⊆ step h T a := by
  intro i hi
  obtain ⟨j, hj, hi⟩ := List.mem_flatMap.1 hi
  exact List.mem_flatMap.2 ⟨j, List.cons_subset_cons 0 sub hj, hi⟩

theorem reach_mono (sub : S ⊆ T) (t : List α) : reach h S t ⊆ reach h T t := by
  induction t generalizing S T with
  | nil => exact sub
  | cons a t ih => exact ih (step_mono sub a)

theorem safe_mono (sub : S ⊆ T) {t : List α} (ht : safe h T t = true) : safe h S t = true := by
  induction t generalizing S T with
  | nil => rfl
  | cons a t ih =>
      have smaller := step_mono sub a (h := h)
      rw [safe, Bool.and_eq_true, Bool.not_eq_true', List.any_eq_false] at ht ⊢
      exact ⟨fun i hi => ht.1 i (smaller hi), ih smaller ht.2⟩

theorem reach_append (S : List Nat) (t u : List α) :
    reach h S (t ++ u) = reach h (reach h S t) u :=
  List.foldl_append

theorem safe_append {t u : List α} :
    safe h S (t ++ u) = true ↔ safe h S t = true ∧ safe h (reach h S t) u = true := by
  induction t generalizing S with
  | nil => simp [safe, reach]
  | cons a t ih =>
      rw [List.cons_append, safe, safe, Bool.and_eq_true, Bool.and_eq_true, ih, and_assoc]
      rfl

theorem after_subset (r : Hazard α) (i : Nat) (a : α) : after r i a ⊆ placesFrom r i := by
  induction r generalizing i with
  | nil => exact List.nil_subset _
  | cons p rest ih =>
      obtain ⟨many, accepts⟩ := p
      cases many with
      | false =>
          rw [after]
          split
          · exact List.cons_subset_cons _ (List.nil_subset _)
          · exact List.nil_subset _
      | true =>
          rw [after]
          split
          · exact List.cons_subset_cons _ (ih (i + 1))
          · exact List.Subset.trans (ih (i + 1)) (List.subset_cons_self _ _)

theorem placesFrom_drop (r : Hazard α) (k i : Nat) :
    placesFrom (r.drop k) (i + k) ⊆ placesFrom r i := by
  induction r generalizing k i with
  | nil => simp [placesFrom]
  | cons p rest ih =>
      cases k with
      | zero => exact fun _ h => h
      | succ k =>
          rw [show i + (k + 1) = i + 1 + k by omega]
          exact List.Subset.trans (ih k (i + 1)) (List.subset_cons_self _ _)

theorem step_subset_anywhere (S : List Nat) (a : α) : step h S a ⊆ anywhere h := by
  intro i hi
  obtain ⟨j, -, hi⟩ := List.mem_flatMap.1 hi
  have further := placesFrom_drop h j 0
  rw [Nat.zero_add] at further
  exact further (after_subset _ _ _ hi)

theorem after_eq_nil {r : Hazard α} {a : α} (refused : ∀ p ∈ r, p.accepts a = false) (i : Nat) :
    after r i a = [] := by
  induction r generalizing i with
  | nil => rfl
  | cons p rest ih =>
      obtain ⟨many, accepts⟩ := p
      obtain ⟨here, later⟩ := List.forall_mem_cons.1 refused
      have stop : accepts a = false := here
      cases many with
      | false => rw [after, stop, if_neg Bool.false_ne_true]
      | true => rw [after, stop, if_neg Bool.false_ne_true, ih later]

/-- A letter that no part accepts leaves nothing begun. -/
theorem step_eq_nil {a : α} (refused : ∀ p ∈ h, p.accepts a = false) (S : List Nat) :
    step h S a = [] :=
  List.flatMap_eq_nil_iff.2 fun i _ => after_eq_nil (fun p hp => refused p (List.mem_of_mem_drop hp)) i

theorem reach_subset_anywhere (sub : S ⊆ anywhere h) (t : List α) : reach h S t ⊆ anywhere h := by
  induction t generalizing S with
  | nil => exact sub
  | cons a t ih => exact ih (step_subset_anywhere S a)

theorem safe_factor {t u v : List α} (ht : safe h S (t ++ u ++ v) = true) : safe h [] u = true := by
  rw [List.append_assoc, safe_append, safe_append] at ht
  exact safe_mono (List.nil_subset _) ht.2.1

/-- A letter that could only complete words leaves none begun where it completes none. -/
theorem step_eq_nil_of_safe {a : α} (last : (step h (anywhere h) a).all (complete h) = true)
    (sub : S ⊆ anywhere h) (safe : safe h S [a] = true) : step h S a = [] := by
  rw [Hazard.safe, Bool.and_eq_true, Bool.not_eq_true', List.any_eq_false] at safe
  refine List.eq_nil_iff_forall_not_mem.2 fun j hj => safe.1 j hj ?_
  exact List.all_eq_true.1 last j (step_mono sub a hj)

theorem after_le {l r : Hazard α} {p : Part α} (single : p.many = false) {a : α}
    (refused : p.accepts a = false) (i : Nat) : ∀ j ∈ after (l ++ p :: r) i a, j ≤ i + l.length := by
  obtain ⟨_, accepts⟩ := p
  obtain rfl : _ = false := single
  have refused : accepts a = false := refused
  induction l generalizing i with
  | nil => simp [after, refused]
  | cons q l ih =>
      obtain ⟨many, accepted⟩ := q
      intro j hj
      have later := ih (i + 1) j
      rw [List.length_cons]
      cases many with
      | false =>
          rw [List.cons_append, after] at hj
          split at hj
          · obtain rfl := List.mem_singleton.1 hj
            omega
          · cases hj
      | true =>
          rw [List.cons_append, after] at hj
          split at hj
          · rcases List.mem_cons.1 hj with rfl | hj
            · omega
            · have := later hj
              omega
          · have := later hj
            omega

/-- No word is completed by letters that a part of every word refuses. -/
theorem safe_of_refused {l r : Hazard α} {p : Part α} (split : h = l ++ p :: r) (single : p.many = false)
    {t : List α} (refused : ∀ a ∈ t, p.accepts a = false) (short : ∀ i ∈ S, i ≤ l.length) :
    safe h S t = true := by
  have behind {i : Nat} (le : i ≤ l.length) : h.drop i = l.drop i ++ p :: r := by
    rw [split, List.drop_append_of_le_length le]
  induction t generalizing S with
  | nil => rfl
  | cons a t ih =>
      obtain ⟨here, others⟩ := List.forall_mem_cons.1 refused
      have shorter : ∀ j ∈ step h S a, j ≤ l.length := by
        intro j hj
        obtain ⟨i, hi, hj⟩ := List.mem_flatMap.1 hj
        have le : i ≤ l.length := by
          rcases List.mem_cons.1 hi with rfl | hi
          · exact Nat.zero_le _
          · exact short i hi
        rw [behind le] at hj
        have := after_le single here i j hj
        rw [List.length_drop] at this
        omega
      rw [safe, Bool.and_eq_true, Bool.not_eq_true', List.any_eq_false]
      refine ⟨fun j hj => ?_, ih others shorter⟩
      rw [complete, behind (shorter j hj)]
      simp [single]

/-! ## Replacing a part of a text -/

/-- Where `T` may have begun, `new` does no more than `old`. -/
def Allows (h : Hazard α) (T : List Nat) (old new : List α) : Prop :=
  safe h T old = true → ∀ S ⊆ T, safe h S new = true ∧ reach h S new ⊆ reach h T old

/-- Whatever has begun, the text completes no word and leaves none begun. -/
def ends (h : Hazard α) (t : List α) : Bool :=
  safe h (anywhere h) t && (reach h (anywhere h) t).isEmpty

/-- The letter completes no word that `lead` would not complete, and leaves none begun. -/
def yields (h : Hazard α) (lead : List α) (a : α) : Bool :=
  safe h [] [a] && (anywhere h).all (fun i => safe h [i] [a] || !safe h [i] lead) &&
    (step h (anywhere h) a).all (complete h)

theorem safe_of_ends {n : List α} (hn : ends h n = true) (sub : S ⊆ anywhere h) :
    safe h S n = true :=
  safe_mono sub (Bool.and_eq_true_iff.1 hn).1

theorem reach_of_ends {n : List α} (hn : ends h n = true) (sub : S ⊆ anywhere h) :
    reach h S n = [] := by
  have none := List.isEmpty_iff.1 (Bool.and_eq_true_iff.1 hn).2
  exact List.subset_nil.1 (none ▸ reach_mono sub n)

theorem safe_ends_append {n t : List α} (hn : ends h n = true) (sub : S ⊆ anywhere h)
    (ht : safe h [] t = true) : safe h S (n ++ t) = true := by
  rw [safe_append, reach_of_ends hn sub]
  exact ⟨safe_of_ends hn sub, ht⟩

theorem safe_append_ends {n t : List α} (hn : ends h n = true) (sub : S ⊆ anywhere h)
    (ht : safe h S t = true) : safe h S (t ++ n) = true :=
  safe_append.2 ⟨ht, safe_of_ends hn (reach_subset_anywhere sub t)⟩

theorem reach_append_ends {n : List α} (hn : ends h n = true) (sub : S ⊆ anywhere h) (t : List α) :
    reach h S (t ++ n) = [] := by
  rw [reach_append]
  exact reach_of_ends hn (reach_subset_anywhere sub t)

/-- Two safe texts with a text between them that ends every word. -/
theorem safe_join {n t u : List α} (ht : safe h [] t = true) (hn : ends h n = true)
    (hu : safe h [] u = true) : safe h [] (t ++ n ++ u) = true := by
  rw [List.append_assoc]
  have inside := reach_subset_anywhere (List.nil_subset (anywhere h)) t
  exact safe_append.2 ⟨ht, safe_ends_append hn inside hu⟩

theorem Allows.refl (t : List α) : h.Allows T t t :=
  fun safe _ sub => ⟨safe_mono sub safe, reach_mono sub t⟩

theorem Allows.append {old old' new new' : List α} (first : h.Allows T old new)
    (later : h.Allows (reach h T old) old' new') : h.Allows T (old ++ old') (new ++ new') := by
  intro safe S sub
  rw [safe_append] at safe
  obtain ⟨here, less⟩ := first safe.1 S sub
  obtain ⟨here', less'⟩ := later safe.2 _ less
  rw [safe_append, reach_append, reach_append]
  exact ⟨⟨here, here'⟩, less'⟩

theorem Allows.append_ends {old new n : List α} (sub : T ⊆ anywhere h) (first : h.Allows T old new)
    (hn : ends h n = true) : h.Allows T old (new ++ n) := by
  intro safe S smaller
  have inside := List.Subset.trans smaller sub
  rw [reach_append_ends hn inside]
  exact ⟨safe_append_ends hn inside (first safe S smaller).1, List.nil_subset _⟩

/-- A text between two texts that end every word. -/
theorem Allows.enclosed {old n t n' : List α} (sub : T ⊆ anywhere h) (hn : ends h n = true)
    (hn' : ends h n' = true) (ht : safe h T old = true → safe h [] t = true) :
    h.Allows T old (n ++ t ++ n') := by
  intro safe S smaller
  have inside := List.Subset.trans smaller sub
  rw [reach_append_ends hn' inside]
  exact ⟨safe_append_ends hn' inside (safe_ends_append hn inside (ht safe)), List.nil_subset _⟩

theorem Allows.of_ends {old n : List α} (sub : T ⊆ anywhere h) (hn : ends h n = true) :
    h.Allows T old n := by
  intro _ S smaller
  have inside := List.Subset.trans smaller sub
  rw [reach_of_ends hn inside]
  exact ⟨safe_of_ends hn inside, List.nil_subset _⟩

/-- The start of a text, and a text that ends every word. -/
theorem Allows.start_ends {t z n : List α} (sub : T ⊆ anywhere h) (hn : ends h n = true) :
    h.Allows T (t ++ z) (t ++ n) := by
  intro safe S smaller
  have inside := List.Subset.trans smaller sub
  rw [reach_append_ends hn inside]
  exact ⟨safe_append_ends hn inside (safe_mono smaller (safe_append.1 safe).1), List.nil_subset _⟩

/-- A letter for letter change after which no class accepts more letters. -/
theorem Allows.map {f : α → α} (hf : ∀ p ∈ h, ∀ a, p.accepts (f a) = true → p.accepts a = true)
    (t : List α) : h.Allows T t (t.map f) := by
  have less : ∀ (r : Hazard α), (∀ p ∈ r, p ∈ h) → ∀ i a, after r i (f a) ⊆ after r i a := by
    intro r hr i a
    induction r generalizing i with
    | nil => exact List.Subset.refl _
    | cons p rest ih =>
        obtain ⟨many, accepts⟩ := p
        have here := hf _ (hr _ List.mem_cons_self) a
        have later := ih (fun q hq => hr q (List.mem_cons_of_mem _ hq)) (i + 1)
        cases many with
        | false =>
            rw [after, after]
            by_cases hfa : accepts (f a) = true
            · rw [if_pos hfa, if_pos (here hfa)]
              exact List.Subset.refl _
            · rw [if_neg hfa]
              exact List.nil_subset _
        | true =>
            rw [after, after]
            by_cases hfa : accepts (f a) = true
            · rw [if_pos hfa, if_pos (here hfa)]
              exact List.cons_subset_cons _ later
            · rw [if_neg hfa]
              split
              · exact List.Subset.trans later (List.subset_cons_self _ _)
              · exact later
  have step_less (S : List Nat) (a : α) : step h S (f a) ⊆ step h S a := by
    intro j hj
    obtain ⟨i, hi, hj⟩ := List.mem_flatMap.1 hj
    refine List.mem_flatMap.2 ⟨i, hi, less _ (fun p hp => List.mem_of_mem_drop hp) i a hj⟩
  induction t generalizing T with
  | nil => exact Allows.refl []
  | cons a t ih =>
      intro safe S sub
      have smaller := List.Subset.trans (step_less S a) (step_mono sub a)
      rw [Hazard.safe, Bool.and_eq_true, Bool.not_eq_true', List.any_eq_false] at safe
      obtain ⟨later, reached⟩ := ih safe.2 _ smaller
      rw [List.map_cons, Hazard.safe, Bool.and_eq_true, Bool.not_eq_true', List.any_eq_false]
      exact ⟨⟨fun i hi => safe.1 i (smaller hi), later⟩, reached⟩

/-- A letter takes the place of a text that begins with what it yields to. -/
theorem Allows.of_yields {s rest : List α} {a : α} (sub : T ⊆ anywhere h)
    (ha : yields h s a = true) : h.Allows T (s ++ rest) [a] := by
  unfold yields at ha
  rw [Bool.and_eq_true, Bool.and_eq_true, List.all_eq_true, List.all_eq_true] at ha
  obtain ⟨⟨alone, each⟩, last⟩ := ha
  intro safe S smaller
  have incomplete : ∀ j ∈ step h S a, complete h j = false := by
    intro j hj
    obtain ⟨i, hi, hj⟩ := List.mem_flatMap.1 hj
    have ofSafe {R : List Nat} (hR : Hazard.safe h R [a] = true) (begun : i ∈ 0 :: R) :
        complete h j = false := by
      rw [Hazard.safe, Bool.and_eq_true, Bool.not_eq_true', List.any_eq_false] at hR
      simpa using hR.1 j (List.mem_flatMap.2 ⟨i, begun, hj⟩)
    rcases List.mem_cons.1 hi with rfl | hi
    · exact ofSafe alone List.mem_cons_self
    · have here := safe_mono (S := [i]) (by simpa using smaller hi) (safe_append.1 safe).1
      refine ofSafe (R := [i]) ?_ (by simp)
      simpa [here] using each i (sub (smaller hi))
  have stays : Hazard.safe h S [a] = true := by
    rw [Hazard.safe, Bool.and_eq_true, Bool.not_eq_true', List.any_eq_false]
    exact ⟨fun j hj => by simp [incomplete j hj], rfl⟩
  have ended := step_eq_nil_of_safe (List.all_eq_true.2 last) (List.Subset.trans smaller sub) stays
  have reached : reach h S [a] = [] := ended
  rw [Hazard.safe, ended, reached]
  exact ⟨rfl, List.nil_subset _⟩

/-! ## Texts that leave begun words as they are -/

/-- From nothing begun the text completes no word and leaves none begun. -/
def opens (h : Hazard α) (t : List α) : Bool := safe h [] t && (reach h [] t).isEmpty

/-- Whatever has begun, the text completes no word, and only words that it can be part of go on. -/
def keeps (h : Hazard α) (t : List α) : Bool :=
  safe h (anywhere h) t && (reach h [] t).isEmpty &&
    (anywhere h).all fun i => (reach h [i] t).all (· == i)

/-- A letter that no part accepts, and a text that opens no word. -/
theorem ends_of_refused {a : α} {t : List α} (refused : ∀ p ∈ h, p.accepts a = false)
    (ht : opens h t = true) : ends h (a :: t) = true := by
  rw [ends, safe, reach, List.foldl_cons, step_eq_nil refused]
  exact ht

theorem mem_reach {j : Nat} {t : List α} (hj : j ∈ reach h S t) :
    j ∈ reach h [] t ∨ ∃ i ∈ S, j ∈ reach h [i] t := by
  induction t generalizing S with
  | nil => exact .inr ⟨j, hj, List.mem_singleton_self j⟩
  | cons a t ih =>
      rcases ih hj with hj | ⟨i, hi, hj⟩
      · exact .inl (reach_mono (List.nil_subset _) t hj)
      · obtain ⟨k, hk, hi⟩ := List.mem_flatMap.1 hi
        have begun {R : List Nat} (hR : k ∈ 0 :: R) : j ∈ reach h R (a :: t) := by
          have later : i ∈ step h R a := List.mem_flatMap.2 ⟨k, hR, hi⟩
          exact reach_mono (S := [i]) (by simpa using later) t hj
        rcases List.mem_cons.1 hk with rfl | hk
        · exact .inl (begun List.mem_cons_self)
        · exact .inr ⟨k, hk, begun (by simp)⟩

theorem safe_of_keeps {t : List α} (ht : keeps h t = true) (sub : S ⊆ anywhere h) :
    safe h S t = true := by
  unfold keeps at ht
  rw [Bool.and_eq_true, Bool.and_eq_true] at ht
  exact safe_mono sub ht.1.1

theorem reach_of_keeps {t : List α} (ht : keeps h t = true) (sub : S ⊆ anywhere h) :
    reach h S t ⊆ S := by
  unfold keeps at ht
  rw [Bool.and_eq_true, Bool.and_eq_true, List.isEmpty_iff, List.all_eq_true] at ht
  intro j hj
  rcases mem_reach hj with hj | ⟨i, hi, hj⟩
  · rw [ht.1.2] at hj
    cases hj
  · have same := List.all_eq_true.1 (ht.2 i (sub hi)) j hj
    rwa [beq_iff_eq.1 same]

/-- A text at the start of a line loses its beginning and is put between two others. -/
theorem Allows.atStart {old a n t n' : List α} (split : old = a ++ t) (hn : opens h n = true)
    (hn' : keeps h n' = true) : h.Allows [] old (n ++ t ++ n') := by
  unfold opens at hn
  rw [Bool.and_eq_true, List.isEmpty_iff] at hn
  subst split
  intro safe S sub
  rw [List.subset_nil.1 sub]
  have inside : reach h [] t ⊆ anywhere h := reach_subset_anywhere (List.nil_subset _) t
  have none : reach h [] (n ++ t) = reach h [] t := by rw [reach_append, hn.2]
  rw [safe_append, safe_append, none, hn.2, reach_append, none, reach_append]
  refine ⟨⟨⟨hn.1, safe_mono (List.nil_subset _) (safe_append.1 safe).2⟩, safe_of_keeps hn' inside⟩, ?_⟩
  exact List.Subset.trans (reach_of_keeps hn' inside) (reach_mono (List.nil_subset _) t)

/-! ## Words -/

/-- The words of a shape. -/
inductive Matches : Hazard α → List α → Prop where
  | nil : Matches [] []
  | one {accepts rest a t} : accepts a = true → Matches rest t →
      Matches (⟨false, accepts⟩ :: rest) (a :: t)
  | stop {accepts rest t} : Matches rest t → Matches (⟨true, accepts⟩ :: rest) t
  | more {accepts rest a t} : accepts a = true → Matches (⟨true, accepts⟩ :: rest) t →
      Matches (⟨true, accepts⟩ :: rest) (a :: t)

theorem Matches.after {r : Hazard α} {w : List α} (hw : Matches r w) {a : α} {t : List α}
    (e : w = a :: t) {i : Nat} (hr : r = h.drop i) :
    ∃ j ∈ Hazard.after r i a, Matches (h.drop j) t := by
  induction hw generalizing i with
  | nil => cases e
  | @one accepts rest b t' ha hw ih =>
      cases e
      have rest_eq : rest = h.drop (i + 1) := by
        rw [← List.drop_drop, ← hr]
        rfl
      exact ⟨i + 1, by simp [Hazard.after, ha], rest_eq ▸ hw⟩
  | @stop accepts rest t' hw ih =>
      have rest_eq : rest = h.drop (i + 1) := by
        rw [← List.drop_drop, ← hr]
        rfl
      obtain ⟨j, hj, hm⟩ := ih e rest_eq
      refine ⟨j, ?_, hm⟩
      rw [Hazard.after]
      split
      · exact List.mem_cons_of_mem _ hj
      · exact hj
  | @more accepts rest b t' ha hw ih =>
      cases e
      exact ⟨i, by simp [Hazard.after, ha], hr ▸ hw⟩

theorem Matches.complete {r : Hazard α} (hr : Matches r []) : r.all Part.many = true := by
  generalize e : ([] : List α) = w at hr
  induction hr with
  | nil => rfl
  | one => cases e
  | stop _ ih => exact ih e
  | more => cases e

theorem not_safe_of_begun {i : Nat} {w v : List α} (hi : i ∈ 0 :: S) (hw : Matches (h.drop i) w)
    (hne : w ≠ []) : safe h S (w ++ v) = false := by
  induction w generalizing i S with
  | nil => exact absurd rfl hne
  | cons a w ih =>
      obtain ⟨j, hj, hm⟩ := hw.after rfl rfl
      have begun : j ∈ step h S a := List.mem_flatMap.2 ⟨i, hi, hj⟩
      rw [List.cons_append, safe, Bool.and_eq_false_iff]
      cases w with
      | nil =>
          left
          rw [List.any_eq_true.2 ⟨j, begun, hm.complete⟩]
          rfl
      | cons b w => exact .inr (ih (List.mem_cons_of_mem _ begun) hm (by simp))

/-- A safe text holds no word of the shape. -/
theorem not_matches_of_safe {u w v : List α} (safe : safe h S (u ++ w ++ v) = true) (hne : w ≠ []) :
    ¬ Matches h w := by
  intro hw
  rw [List.append_assoc, safe_append] at safe
  have completed := not_safe_of_begun (v := v) (List.mem_cons_self : 0 ∈ 0 :: reach h S u) hw hne
  rw [completed] at safe
  cases safe.2

/-- A word begins with a letter of its first part, unless any number of them may stand there. -/
theorem Matches.single {accepts : α → Bool} {r : Hazard α} {w : List α} (h : Matches (⟨false, accepts⟩ :: r) w) :
    ∃ a v, w = a :: v ∧ accepts a = true ∧ Matches r v := by
  cases h with
  | one accepted later => exact ⟨_, _, rfl, accepted, later⟩

/-- Where any number of letters may stand, some do, and the rest of the word stands behind them. -/
theorem Matches.repeated {accepts : α → Bool} {r : Hazard α} {w : List α} (h : Matches (⟨true, accepts⟩ :: r) w) :
    ∃ u v, w = u ++ v ∧ (∀ a ∈ u, accepts a = true) ∧ Matches r v := by
  generalize split : (⟨true, accepts⟩ :: r : Hazard α) = h' at h
  induction h with
  | nil | one => cases split
  | stop later =>
      obtain ⟨same, rfl⟩ := List.cons.inj split
      exact ⟨[], _, rfl, by simp, later⟩
  | @more _ _ a _ accepted _ ih =>
      obtain ⟨u, v, rfl, all, later⟩ := ih split
      obtain ⟨same, -⟩ := List.cons.inj split
      cases same
      exact ⟨a :: u, v, rfl, List.forall_mem_cons.2 ⟨accepted, all⟩, later⟩

/-- What may have come behind a letter goes on from what had come before it. -/
theorem Matches.of_after {i j : Nat} {a : α} {t : List α} (hj : j ∈ Hazard.after (h.drop i) i a) (ht : Matches (h.drop j) t) :
    Matches (h.drop i) (a :: t) := by
  have all (r : Hazard α) : ∀ i, r = h.drop i → j ∈ Hazard.after r i a → Matches r (a :: t) := by
    induction r with
    | nil => exact fun _ _ hj => by cases hj
    | cons p rest ih =>
        intro i split hj
        obtain ⟨many, accepts⟩ := p
        have rest_eq : rest = h.drop (i + 1) := by
          rw [← List.drop_drop, ← split]
          rfl
        cases many with
        | false =>
            rw [Hazard.after] at hj
            split at hj
            · rename_i accepted
              obtain rfl := List.mem_singleton.1 hj
              exact .one accepted (rest_eq ▸ ht)
            · cases hj
        | true =>
            rw [Hazard.after] at hj
            split at hj
            · rename_i accepted
              rcases List.mem_cons.1 hj with rfl | hj
              · exact .more accepted (split ▸ ht)
              · exact .stop (ih (i + 1) rest_eq hj)
            · exact .stop (ih (i + 1) rest_eq hj)
  exact all _ i rfl hj

theorem Matches.of_complete {r : Hazard α} (hr : r.all Part.many = true) : Matches r [] := by
  induction r with
  | nil => exact .nil
  | cons p rest ih =>
      obtain ⟨many, accepts⟩ := p
      obtain ⟨rfl, later⟩ := Bool.and_eq_true_iff.1 hr
      exact .stop (ih later)

/-- If a text is not safe, a word of the shape stands in it or began before it. -/
theorem exists_matches (past : List α) {t : List α} (found : safe h S t = false)
    (begun : ∀ i ∈ 0 :: S, ∃ u w, past = u ++ w ∧ ∀ z, Matches (h.drop i) z → Matches h (w ++ z)) :
    ∃ w, w <:+: past ++ t ∧ w ≠ [] ∧ Matches h w := by
  induction t generalizing S past with
  | nil => cases found
  | cons a t ih =>
      have later : ∀ j ∈ step h S a, ∃ u w, past ++ [a] = u ++ (w ++ [a]) ∧
          ∀ z, Matches (h.drop j) z → Matches h (w ++ [a] ++ z) := by
        intro j hj
        obtain ⟨i, hi, hj⟩ := List.mem_flatMap.1 hj
        obtain ⟨u, w, rfl, completes⟩ := begun i hi
        refine ⟨u, w, List.append_assoc _ _ _, fun z hz => ?_⟩
        rw [List.append_assoc]
        exact completes (a :: z) (.of_after hj hz)
      rw [safe, Bool.and_eq_false_iff, Bool.not_eq_false'] at found
      rcases found with here | found
      · obtain ⟨j, hj, complete⟩ := List.any_eq_true.1 here
        obtain ⟨u, w, split, completes⟩ := later j hj
        refine ⟨w ++ [a], ⟨u, t, ?_⟩, by simp, by simpa using completes [] (.of_complete complete)⟩
        rw [← split, List.append_assoc]
        rfl
      · obtain ⟨w, inside, full, matched⟩ := ih (past ++ [a]) found fun j hj => by
          rcases List.mem_cons.1 hj with rfl | hj
          · exact ⟨past ++ [a], [], (List.append_nil _).symm, fun z hz => hz⟩
          · obtain ⟨u, w, split, completes⟩ := later j hj
            exact ⟨u, w ++ [a], split, completes⟩
        exact ⟨w, by simpa using inside, full, matched⟩

/-- A text is safe exactly if it holds no word of the shape. -/
theorem safe_iff {t : List α} : safe h [] t = true ↔ ∀ w, w <:+: t → w ≠ [] → ¬ Matches h w := by
  constructor
  · rintro safe w ⟨u, v, rfl⟩ full
    exact not_matches_of_safe safe full
  · intro none
    rw [← Bool.not_eq_false]
    intro found
    obtain ⟨w, inside, full, matched⟩ := exists_matches [] found fun i hi =>
      ⟨[], [], rfl, fun z hz => by simpa [List.mem_singleton.1 hi] using hz⟩
    exact none w inside full matched

end Hazard

end LessonText
