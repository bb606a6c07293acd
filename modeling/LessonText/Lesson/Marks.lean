import LessonText.Text.Quoted

/-! # Marks

Marks given to items, in the order in which they are given. An item may be marked several times.
-/

namespace LessonText

/-- The outcome of an attempt. -/
inductive Mark where
  | correct
  | incorrect
  | skipped
  deriving DecidableEq

/-- A name that is no mark. -/
inductive MarkError where
  | unknown (name : Text)

namespace MarkError

def message : MarkError → Text
  | unknown name => Quoted.quote name ++ " is not a valid MarkState"

end MarkError

namespace Mark

def name : Mark → Text
  | correct => "correct"
  | incorrect => "incorrect"
  | skipped => "skipped"

def ofName (name : Text) : Except MarkError Mark :=
  match [correct, incorrect, skipped].find? (·.name == name) with
  | some mark => .ok mark
  | none => .error (.unknown name)

end Mark

/-- The marked items. -/
structure Marks (α : Type) where
  items : List (α × Mark) := []

namespace Marks

variable {α : Type}

def add (marks : Marks α) (item : α) (mark : Mark) : Marks α := ⟨marks.items ++ [(item, mark)]⟩

/-- How often a mark was given. -/
def count (marks : Marks α) (mark : Mark) : Nat := (marks.items.filter (·.2 == mark)).length

def total (marks : Marks α) : Nat :=
  marks.count .correct + marks.count .incorrect + marks.count .skipped

end Marks

end LessonText
