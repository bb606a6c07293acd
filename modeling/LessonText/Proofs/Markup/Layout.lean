import Mathlib.Data.List.Chain
import LessonText.Proofs.Markup.Making

/-! # Parts with line ends between them

A text of several parts has line ends before, between and behind them. A rule takes some of the line ends next to a
part, and puts others around what it makes of the part. How many there are decides what a later rule finds.
-/

namespace LessonText

open Draft Pattern

def lineEnds (k : Nat) : Text := List.replicate k '\n'

theorem lineEnds_add (k m : Nat) : lineEnds (k + m) = lineEnds k ++ lineEnds m := List.replicate_add k m '\n'

theorem eq_newline {k : Nat} {c : Char} (h : c ∈ lineEnds k) : c = '\n' := (List.mem_replicate.1 h).2

/-- The text ends here, or the line does. -/
def Stops (t : Text) : Prop := t = [] ∨ ∃ r, t = '\n' :: r

namespace Stops

variable {t : Text} {b : Option Char}

theorem head?_eq (h : Stops t) : ∀ c ∈ t.head?, c = '\n' := by
  rcases h with rfl | ⟨r, rfl⟩
  · nofun
  · rintro _ ⟨⟩
    rfl

theorem lineEnd (h : Stops t) : lineEnd.Reads b [] t [] := by
  refine .place ?_
  rcases h with rfl | ⟨r, rfl⟩ <;> rfl

end Stops

/-- What stands before the first line end of a text with line ends behind it stands in the text. -/
theorem within {x y t r : Text} {m : Nat} (single : '\n' ∉ y) (apart : t ≠ [] → m ≠ 0)
    (h : x ++ (lineEnds m ++ t) = y ++ r) : ∃ z, x = y ++ z ∧ r = z ++ (lineEnds m ++ t) := by
  rcases List.append_eq_append_iff.1 h with ⟨z, rfl, behind⟩ | found
  · cases z with
    | nil => exact ⟨[], by simp, behind.symm⟩
    | cons c z =>
        cases m with
        | zero => exact absurd rfl (apart (by simp [show t = _ from behind]))
        | succ m =>
            obtain ⟨rfl, -⟩ := List.cons.inj behind
            exact absurd (by simp) single
  · exact found

/-- What begins with no line end is behind the line ends before a text. -/
theorem exists_behind {t x y : Text} {c : Char} {k : Nat} (other : c ≠ '\n') (h : lineEnds k ++ t = x ++ c :: y) :
    ∃ u, t = u ++ c :: y := by
  rcases List.append_eq_append_iff.1 h with ⟨u, -, behind⟩ | ⟨z, ends, behind⟩
  · exact ⟨u, behind⟩
  · cases z with
    | nil => exact ⟨[], behind.symm⟩
    | cons d z =>
        obtain ⟨rfl, -⟩ := List.cons.inj behind
        exact absurd (eq_newline (k := k) (by rw [ends]; simp)) other

section Layout

variable {α : Type} {S S' : α → Draft → Prop} {need gap gap' : Nat} {r : Rule} {parts : List α} {d : Draft}

/-- The drafts that stand for parts, with so many line ends between every two. -/
inductive Laid (gap : Nat) (S : α → Draft → Prop) : List α → Draft → Prop where
  | last {a d} (k : Nat) : S a d → Laid gap S [a] (d ++ chars (lineEnds k))
  | cons {a d k parts rest} : S a d → gap ≤ k → Laid gap S parts rest →
      Laid gap S (a :: parts) (d ++ (chars (lineEnds k) ++ rest))

/-- The line ends before a part; at the start of the text there may be none. -/
def Before (need : Nat) (b : Option Char) (k : Nat) : Prop := b = none ∧ k = 0 ∨ need ≤ k

/-- The line ends behind a part, and the text behind these: none, or another part. -/
def Behind (gap : Nat) (S : α → Draft → Prop) (k : Nat) (t : Text) : Prop :=
  t = [] ∨ gap ≤ k ∧ ∃ a d u, S a d ∧ t = text d ++ u

/-- A part between line ends, where `k` were before it and `k` more are behind it. -/
def Between (gap : Nat) (S : α → Draft → Prop) (a : α) (before behind : Nat) (t : Text) (d : Draft) : Prop :=
  ∃ k e m, d = chars (lineEnds k) ++ (e ++ chars (lineEnds m)) ∧ (k = before ∨ gap ≤ k) ∧
    (t ≠ [] → gap ≤ m + behind) ∧ S a e

/-- What a rule makes of a part with `k` line ends before it and `m` behind it; some of these it may take. -/
def Rule.Treated (r : Rule) (need gap : Nat) (S : α → Draft → Prop) (a : α) (d : Draft) (b : Option Char) (k m : Nat)
    (t : Text) : Prop :=
  ∃ i j, m = i + j ∧ (t ≠ [] → need ≤ j) ∧
    r.Makes b (lineEnds k ++ (text d ++ lineEnds i)) (lineEnds j ++ t) (wards d) (Between gap S a k j t)

/-- A rule makes one thing of another if so many line ends are before it. -/
def Rule.Treats (r : Rule) (need gap gap' : Nat) (S S' : α → Draft → Prop) : Prop :=
  ∀ {a d b k m t}, S a d → Before need b k → Behind gap S m t → r.Treated need gap' S' a d b k m t

/-- A part in which a rule finds nothing, nor in the line ends before it. -/
theorem Rule.Treated.of_skips {a : α} {b : Option Char} {k m : Nat} {t : Text} (enough : t ≠ [] → need ≤ m ∧ gap ≤ m)
    (skips : r.pattern.Skips b (lineEnds k ++ text d) (lineEnds m ++ t)) (kept : S a d) :
    r.Treated need gap S a d b k m t := by
  refine ⟨0, m, (Nat.zero_add m).symm, fun h => (enough h).1, ?_⟩
  have shown : lineEnds k ++ text d = text (chars (lineEnds k) ++ d) := by simp
  have held : wards d = wards (chars (lineEnds k) ++ d) := by simp
  rw [show lineEnds 0 = [] from rfl, List.append_nil, shown, held]
  rw [shown] at skips
  exact .of_skips skips ⟨k, d, 0, by simp [lineEnds, chars], .inl rfl, fun h => by simpa using (enough h).2, kept⟩

theorem Rule.Treated.mono {a : α} {b : Option Char} {k m : Nat} {t : Text} (h : r.Treated need gap S a d b k m t)
    (imp : ∀ e, S a e → S' a e) : r.Treated need gap S' a d b k m t := by
  obtain ⟨i, j, split, enough, makes⟩ := h
  refine ⟨i, j, split, enough, makes.mono ?_⟩
  rintro _ ⟨n, e, l, rfl, leading, apart, stands⟩
  exact ⟨n, e, l, rfl, leading, apart, imp e stands⟩

theorem Laid.text_ne_nil (full : ∀ a d, S a d → text d ≠ []) (laid : Laid gap S parts d) : text d ≠ [] := by
  cases laid with
  | last k here => simp [full _ _ here]
  | cons here => simp [full _ _ here]

/-- What a rule makes of parts with line ends before them. -/
theorem Laid.makes (treats : r.Treats need gap gap' S S') (full : ∀ a d, S a d → text d ≠ [])
    (ends : ∀ b k, r.Makes b (lineEnds k) [] [] fun d => ∃ m, d = chars (lineEnds m)) (laid : Laid gap S parts d) :
    ∀ {b k}, Before need b k → r.Makes b (lineEnds k ++ text d) [] (wards d) fun d' =>
      ∃ m e, d' = chars (lineEnds m) ++ e ∧ (m = k ∨ gap' ≤ m) ∧ Laid gap' S' parts e := by
  induction laid with
  | @last a d m here =>
      intro b k before
      obtain ⟨i, j, rfl, -, makes⟩ := treats here before (.inl rfl) (m := m)
      have all := makes.append (ends _ j)
      simp only [text_append, text_chars, wards_append, wards_chars, lineEnds_add, List.append_assoc] at all ⊢
      refine all.mono ?_
      rintro _ ⟨_, _, rfl, ⟨k', e, i', rfl, leading, -, stands⟩, j', rfl⟩
      refine ⟨k', e ++ chars (lineEnds (i' + j')), ?_, leading, .last _ stands⟩
      simp [lineEnds_add, chars_append]
  | @cons a d m parts rest here enough laid ih =>
      intro b k before
      have behind : Behind gap S m (text rest) := by
        refine .inr ⟨enough, ?_⟩
        cases laid with
        | last k' here' => exact ⟨_, _, _, here', text_append _ _⟩
        | cons here' => exact ⟨_, _, _, here', text_append _ _⟩
      obtain ⟨i, j, rfl, rest_enough, makes⟩ := treats here before behind
      have next : Before need ((lineEnds k ++ (text d ++ lineEnds i)).getLast?.or b) j :=
        .inr (rest_enough (laid.text_ne_nil full))
      rw [← List.append_nil (lineEnds j ++ text rest)] at makes
      have all := makes.append (ih next)
      simp only [text_append, text_chars, wards_append, wards_chars, lineEnds_add, List.append_assoc] at all ⊢
      refine all.mono ?_
      rintro _ ⟨_, _, rfl, ⟨k', e, i', rfl, leading, apart, stands⟩, j', rest', rfl, between, laid'⟩
      refine ⟨k', e ++ (chars (lineEnds (i' + j')) ++ rest'), ?_, leading, .cons stands ?_ laid'⟩
      · simp [lineEnds_add, chars_append]
      · have := apart (laid.text_ne_nil full)
        omega

/-- Parts with line ends between them, and perhaps as many before the first. -/
def Apart (gap : Nat) (S : α → Draft → Prop) (parts : List α) (d : Draft) : Prop :=
  ∃ k e, d = chars (lineEnds k) ++ e ∧ (k = 0 ∨ gap ≤ k) ∧ Laid gap S parts e

/-- What a rule makes of a text of parts. -/
theorem Apart.turns (advances : r.pattern.Advances) (treats : r.Treats need gap gap' S S') (enough : need ≤ gap ∧ gap' ≤ gap)
    (full : ∀ a d, S a d → text d ≠ [])
    (ends : ∀ b k, r.Makes b (lineEnds k) [] [] fun d => ∃ m, d = chars (lineEnds m)) (h : Apart gap S parts d) :
    Turns (r.apply (text d)) (wards d) (Apart gap' S' parts) := by
  obtain ⟨k, e, rfl, leading, laid⟩ := h
  have makes := laid.makes treats full ends (leading.imp (And.intro rfl) enough.1.trans)
  rw [text_append, text_chars, wards_append, wards_chars, List.nil_append]
  refine (makes.apply advances).mono ?_
  rintro _ ⟨m, e', rfl, leading', laid'⟩
  refine ⟨m, e', rfl, ?_, laid'⟩
  omega

end Layout

/-! ## The starts of lines -/

/-- Every line begins with such a character, and the last one does not end. -/
structure Led (f : Char → Bool) (t : Text) : Prop where
  first : t.head?.any f = true
  later : t.IsChain fun a c => a = '\n' → f c = true
  last : t.getLast? ≠ some '\n'

namespace Led

variable {f : Char → Bool} {t x y a z : Text}

theorem of_single (first : t.head?.any f = true) (single : '\n' ∉ t) : Led f t where
  first := first
  later := by
    refine List.isChain_iff_forall_rel_of_append_cons_cons.2 ?_
    rintro _ c u v rfl rfl
    simp at single
  last := fun last => single (List.mem_of_getLast? last)

theorem ne_nil (h : Led f t) : t ≠ [] := by
  rintro rfl
  exact Bool.false_ne_true h.first

/-- Two texts, on one line or on two. -/
theorem append (ht : Led f t) (hx : Led f x) (between : a = [] ∨ a = ['\n']) : Led f (t ++ (a ++ x)) where
  first := by
    rw [List.head?_append_of_ne_nil _ ht.ne_nil]
    exact ht.first
  later := by
    have behind : (a ++ x).IsChain fun a c => a = '\n' → f c = true := by
      rcases between with rfl | rfl
      · exact hx.later
      · obtain ⟨c, x, rfl⟩ := List.exists_cons_of_ne_nil hx.ne_nil
        exact List.isChain_cons_cons.2 ⟨fun _ => hx.first, hx.later⟩
    refine List.isChain_append.2 ⟨ht.later, behind, ?_⟩
    rintro c last - - rfl
    exact absurd last ht.last
  last := by
    rw [List.getLast?_append_of_ne_nil _ (by simp [hx.ne_nil]), List.getLast?_append_of_ne_nil _ hx.ne_nil]
    exact hx.last

end Led

namespace Pattern

/-- What the pattern matches is at the start of a line, or at the end of the line before, and the line begins with such
    a character. -/
def Leads (p : Pattern) (f : Char → Bool) : Prop :=
  ∀ b w r gs, p.Takes b w r gs → ∃ c v, f c = true ∧ (b.all (· == '\n') = true ∧ w = c :: v ∨ w = '\n' :: c :: v)

namespace Leads

variable {p q : Pattern} {f g : Char → Bool}

theorem lineStart (advances : p.Advances) : (lineStart ++ p).Leads p.mayBegin := by
  rintro b _ r _ ⟨_, w, _, gs, rfl, -, ⟨rfl, start, -⟩, takes⟩
  obtain ⟨c, v, rfl⟩ := List.exists_cons_of_ne_nil (advances _ _ _ _ takes)
  exact ⟨c, v, takes.mayBegin, .inl ⟨start, rfl⟩⟩

theorem append (h : p.Leads f) : (p ++ q).Leads f := by
  rintro b _ r _ ⟨w, w', gs, gs', rfl, -, takes, -⟩
  obtain ⟨c, v, hc, ⟨start, rfl⟩ | rfl⟩ := h _ _ _ _ takes
  · exact ⟨c, v ++ w', hc, .inl ⟨start, rfl⟩⟩
  · exact ⟨c, v ++ w', hc, .inr rfl⟩

/-- The pattern matches nothing in line ends before such a text. -/
theorem passes_lineEnds (h : p.Leads f) (newline : f '\n' = false) {b : Option Char} {k : Nat} {u : Text}
    (next : ∀ c ∈ u.head?, f c = false) : p.Passes b (lineEnds k) u := by
  have refused {y : Text} (split : ∃ x, lineEnds k = x ++ y) : ∀ c ∈ (y ++ u).head?, f c = false := by
    obtain ⟨x, split⟩ := split
    cases y with
    | nil => exact next
    | cons c y =>
        have inside : c ∈ lineEnds k := by rw [split]; simp
        rintro _ ⟨⟩
        rwa [eq_newline inside]
  rintro x y split full w r gs ahead takes
  obtain ⟨a, y, rfl⟩ := List.exists_cons_of_ne_nil full
  obtain ⟨c, v, hc, ⟨-, rfl⟩ | rfl⟩ := h _ _ _ _ takes
  · rw [refused ⟨x, split⟩ c (by rw [ahead]; rfl)] at hc
    cases hc
  · have behind : y ++ u = c :: (v ++ r) := (List.cons.inj ahead).2
    rw [refused ⟨x ++ [a], by simpa using split⟩ c (by rw [behind]; rfl)] at hc
    cases hc

/-- Where other characters begin the lines, the pattern matches nothing. -/
theorem passes_led (h : p.Leads f) {t : Text} (led : Led g t) (apart : ∀ c, g c = true → f c = false) {b : Option Char}
    {u : Text} : p.Passes b t u := by
  rintro x y split full w r gs ahead takes
  obtain ⟨a, y, rfl⟩ := List.exists_cons_of_ne_nil full
  obtain ⟨c, v, hc, ⟨line, rfl⟩ | rfl⟩ := h _ _ _ _ takes
  · obtain ⟨rfl, -⟩ := List.cons.inj ahead
    rcases List.eq_nil_or_concat' x with rfl | ⟨x, e, rfl⟩
    · have first := led.first
      rw [split] at first
      rw [apart a first] at hc
      cases hc
    · rw [List.getLast?_concat] at line
      obtain rfl : e = '\n' := beq_iff_eq.1 line
      rw [List.append_assoc] at split
      rw [apart a (List.isChain_iff_forall_rel_of_append_cons_cons.1 led.later split rfl)] at hc
      cases hc
  · obtain ⟨rfl, behind⟩ := List.cons.inj ahead
    cases y with
    | nil => exact led.last (by rw [split, List.getLast?_concat])
    | cons e y =>
        obtain ⟨rfl, -⟩ := List.cons.inj behind
        rw [apart e (List.isChain_iff_forall_rel_of_append_cons_cons.1 led.later split rfl)] at hc
        cases hc

theorem passes (h : p.Leads f) (newline : f '\n' = false) {t : Text} (led : Led g t) (apart : ∀ c, g c = true → f c = false)
    {b : Option Char} {k : Nat} {u : Text} : p.Passes b (lineEnds k ++ t) u := by
  refine .append (h.passes_lineEnds newline fun c hc => ?_) (h.passes_led led apart)
  rw [List.head?_append_of_ne_nil _ led.ne_nil] at hc
  have first := led.first
  rw [Option.mem_def.1 hc] at first
  exact apart c first

end Leads

end Pattern

end LessonText
