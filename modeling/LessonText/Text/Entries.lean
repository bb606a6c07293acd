import LessonText.Text.Basic

/-! # Entries

Values by their names. A value given again replaces the one before and keeps its place.
-/

namespace LessonText

/-- Values in the order in which their names first appear. -/
abbrev Entries (α : Type) := List (Text × α)

namespace Entries

variable {α : Type}

/-- Replace the value of a name, or add it at the end. -/
def insert (name : Text) (value : α) : Entries α → Entries α
  | [] => [(name, value)]
  | (n, v) :: rest => if n = name then (n, value) :: rest else (n, v) :: insert name value rest

end Entries

end LessonText
