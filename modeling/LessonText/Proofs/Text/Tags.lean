import Mathlib.Data.List.Basic
import LessonText.Text.Basic

/-! # Tags that nest

A text is read for its tags alone. They nest if each closing tag closes the latest of those that are open, and none is open
at the end. Tags put around a part of a text nest exactly if the tags of the part and of the text do: as long as no other tag
of their name is open in the part, they can be closed only by each other.
-/

namespace LessonText

/-! ## Where a run of characters is stopped -/

namespace Text

variable {f : Char → Bool} {c : Char}

theorem takeWhile_stops (stop : f c = false) (u t : Text) : (u ++ c :: t).takeWhile f = u.takeWhile f := by
  induction u with
  | nil => exact List.takeWhile_cons_of_neg (by simp [stop])
  | cons d u ih => rw [List.cons_append, List.takeWhile_cons, List.takeWhile_cons, ih]

theorem dropWhile_stops (stop : f c = false) (u t : Text) : (u ++ c :: t).dropWhile f = u.dropWhile f ++ c :: t := by
  induction u with
  | nil => exact List.dropWhile_cons_of_neg (by simp [stop])
  | cons d u ih =>
      rw [List.cons_append, List.dropWhile_cons, List.dropWhile_cons, ih]
      split <;> rfl

end Text

/-! ## Tags and their names -/

/-- A tag with its name. -/
inductive Tag where
  | opening (name : Text)
  | closing (name : Text)
  deriving DecidableEq

namespace Tag

def name : Tag → Text
  | opening n | closing n => n

/-- The tag behind a bracket. -/
def read : Text → Tag
  | '/' :: t => closing (t.takeWhile Char.isAlpha)
  | t => opening (t.takeWhile Char.isAlpha)

/-- The tags of a text: one behind every opening bracket. -/
def all : Text → List Tag
  | [] => []
  | c :: t => if c = '<' then read t :: all t else all t

/-- The names of the tags that are open behind some tags, the latest first. -/
def walk : List Text → List Tag → Option (List Text)
  | ns, [] => some ns
  | ns, opening n :: ts => walk (n :: ns) ts
  | [], closing _ :: _ => none
  | m :: ns, closing n :: ts => if m = n then walk ns ts else none

/-- Each closing tag closes the latest that is open, and none is left open. -/
def Nested (t : Text) : Prop := walk [] (all t) = some []

instance : DecidablePred Nested := fun _ => inferInstanceAs (Decidable (_ = _))

variable {c : Char} {t u w : Text}

/-! ## The tags of a text -/

/-- A character that is no part of a name stops the reading of a tag. -/
def Stops (c : Char) : Prop := c.isAlpha = false ∧ c ≠ '/'

instance : DecidablePred Stops := fun _ => inferInstanceAs (Decidable (_ ∧ _))

theorem read_of_ne (other : c ≠ '/') (t : Text) : read (c :: t) = opening ((c :: t).takeWhile Char.isAlpha) := by
  rw [read]
  simpa using other

theorem read_stops (stop : Stops c) (u t : Text) : read (u ++ c :: t) = read u := by
  cases u with
  | nil => rw [List.nil_append, read_of_ne stop.2, List.takeWhile_cons_of_neg (by simp [stop.1])]; rfl
  | cons d u =>
      by_cases slash : d = '/'
      · subst slash
        exact congrArg closing (Text.takeWhile_stops stop.1 u t)
      · rw [List.cons_append, read_of_ne slash, read_of_ne slash, ← List.cons_append, Text.takeWhile_stops stop.1]

/-- What stands behind a character that is no part of a name changes no tag before it. -/
theorem all_stops (stop : Stops c) (u t : Text) : all (u ++ c :: t) = all u ++ all (c :: t) := by
  induction u with
  | nil => rfl
  | cons d u ih =>
      rw [List.cons_append, all, all, ih, read_stops stop]
      split <;> rfl

theorem mem_all_cons {x : Tag} (h : x ∈ all t) : x ∈ all (c :: t) := by
  rw [all]
  split
  · exact List.mem_cons_of_mem _ h
  · exact h

theorem all_plain (none : '<' ∉ w) : all (w ++ t) = all t := by
  induction w with
  | nil => rfl
  | cons c w ih =>
      rw [List.mem_cons, not_or] at none
      rw [List.cons_append, all, if_neg (Ne.symm none.1), ih none.2]

theorem all_eq_nil (none : '<' ∉ w) : all w = [] := by
  simpa [all] using all_plain (t := []) none

/-! ## Tags that are open -/

theorem walk_append {ns ms ls : List Text} {ts us : List Tag} (h : walk ns ts = some ms) :
    walk (ns ++ ls) (ts ++ us) = walk (ms ++ ls) us := by
  induction ts generalizing ns with
  | nil =>
      obtain rfl := Option.some.inj h
      rfl
  | cons x ts ih =>
      cases x with
      | opening n => exact ih h
      | closing n =>
          cases ns with
          | nil => cases h
          | cons m ns =>
              rw [walk] at h
              split at h
              · rename_i same
                rw [List.cons_append, List.cons_append, walk, if_pos same, ih h]
              · cases h

/-- Tags that nest leave open what was open before them. -/
theorem walk_nested {g : List Tag} (h : walk [] g = some []) (ns : List Text) (ts : List Tag) :
    walk ns (g ++ ts) = walk ns ts := walk_append h

/-- A tag of the name is closed as soon as it is opened. -/
inductive Paired (n : Text) : List Tag → Prop where
  | nil : Paired n []
  | other {x ts} : x.name ≠ n → Paired n ts → Paired n (x :: ts)
  | pair {ts} : Paired n ts → Paired n (opening n :: closing n :: ts)

theorem Paired.of_forall {n : Text} {ts : List Tag} (h : ∀ x ∈ ts, x.name ≠ n) : Paired n ts := by
  induction ts with
  | nil => exact .nil
  | cons x ts ih =>
      obtain ⟨here, later⟩ := List.forall_mem_cons.1 h
      exact .other here (ih later)

/-- A closing tag behind a part closes the one of its name before the part only if the tags of the part nest. -/
theorem Paired.walk_eq {n : Text} {g ts : List Tag} {ns ms ls : List Text} (h : Paired n g) (fresh : n ∉ ms)
    (closed : walk (ms ++ n :: ns) (g ++ closing n :: ts) = some ls) : walk ms g = some [] ∧ walk ns ts = some ls := by
  induction h generalizing ms with
  | nil =>
      cases ms with
      | nil => exact ⟨rfl, by simpa [walk] using closed⟩
      | cons m ms =>
          rw [List.mem_cons, not_or] at fresh
          simp [walk, Ne.symm fresh.1] at closed
  | @other x g other _ ih =>
      cases x with
      | opening m =>
          have unlike : n ≠ m := Ne.symm other
          have still : n ∉ m :: ms := by simp [fresh, unlike]
          exact ih still closed
      | closing m =>
          have unlike : n ≠ m := Ne.symm other
          cases ms with
          | nil => simp [walk, unlike] at closed
          | cons l ms =>
              rw [List.mem_cons, not_or] at fresh
              rw [List.cons_append, List.cons_append, walk] at closed
              split at closed
              · rename_i same
                rw [walk, if_pos same]
                exact ih fresh.2 closed
              · cases closed
  | pair _ ih =>
      have rest := ih fresh (by simpa [walk] using closed)
      simpa [walk] using rest

/-! ## Tags around parts -/

/-- The tags `us` are the tags `ts` with others before and behind some parts. -/
inductive Wraps (before behind : List Tag) : List Tag → List Tag → List (List Tag) → Prop where
  | nil : Wraps before behind [] [] []
  | tag {x ts us gs} : Wraps before behind ts us gs → Wraps before behind (x :: ts) (x :: us) gs
  | wrap {g ts us gs} : Wraps before behind ts us gs →
      Wraps before behind (g ++ ts) (before ++ (g ++ (behind ++ us))) (g :: gs)

namespace Wraps

variable {before behind ts us : List Tag} {gs : List (List Tag)}

theorem eq_of_nil (h : Wraps [] [] ts us gs) : us = ts := by
  induction h with
  | nil => rfl
  | tag _ ih => rw [ih]
  | wrap _ ih => rw [ih]; rfl

theorem mem_parts (h : Wraps before behind ts us gs) : ∀ g ∈ gs, ∀ x ∈ g, x ∈ ts := by
  induction h with
  | nil => nofun
  | tag _ ih => exact fun g hg x hx => List.mem_cons_of_mem _ (ih g hg x hx)
  | wrap _ ih =>
      intro g hg x hx
      rcases List.mem_cons.1 hg with rfl | hg
      · exact List.mem_append_left _ hx
      · exact List.mem_append_right _ (ih g hg x hx)

theorem mem (h : Wraps before behind ts us gs) : ∀ x ∈ us, x ∈ ts ∨ x ∈ before ∨ x ∈ behind := by
  induction h with
  | nil => nofun
  | tag _ ih =>
      refine List.forall_mem_cons.2 ⟨.inl List.mem_cons_self, fun x hx => ?_⟩
      exact (ih x hx).imp_left (List.mem_cons_of_mem _)
  | wrap _ ih =>
      intro x hx
      simp only [List.mem_append] at hx ⊢
      rcases hx with hx | hx | hx | hx
      · exact .inr (.inl hx)
      · exact .inl (.inl hx)
      · exact .inr (.inr hx)
      · exact (ih x hx).imp_left .inr

/-- Tags that open one tag of a name before each part and close it behind leave the same tags open, if those of the parts
    nest, and do not nest otherwise. -/
theorem walk_iff {n : Text} (opens : ∀ ns ts, walk ns (before ++ ts) = walk (n :: ns) ts)
    (h : Wraps before [closing n] ts us gs) (fresh : ∀ g ∈ gs, Paired n g) {ns ms : List Text} :
    walk ns us = some ms ↔ walk ns ts = some ms ∧ ∀ g ∈ gs, walk [] g = some [] := by
  induction h generalizing ns with
  | nil => simp
  | @tag x ts us gs _ ih =>
      cases x with
      | opening m => exact ih fresh
      | closing m =>
          cases ns with
          | nil => simp [walk]
          | cons l ns =>
              rw [walk, walk]
              split
              · exact ih fresh
              · simp
  | @wrap g ts us gs _ ih =>
      obtain ⟨here, later⟩ := List.forall_mem_cons.1 fresh
      rw [opens, List.forall_mem_cons]
      constructor
      · intro closed
        obtain ⟨nested, rest⟩ := here.walk_eq List.not_mem_nil closed
        obtain ⟨whole, others⟩ := (ih later).1 rest
        exact ⟨(walk_nested nested ns ts).trans whole, nested, others⟩
      · rintro ⟨whole, nested, others⟩
        have rest := (ih later).2 ⟨(walk_nested nested ns ts).symm.trans whole, others⟩
        rw [walk_nested nested]
        simpa [walk] using rest

end Wraps

end Tag

end LessonText
