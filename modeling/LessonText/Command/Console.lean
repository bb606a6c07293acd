import LessonText.Pattern.Class
import LessonText.Pattern.Rewrite

/-! # Console output

What a command shows: lines with tags in square brackets for colours, and tables. Text that is not
meant as a tag is escaped. What a command prints has no tags.
-/

namespace LessonText

inductive Console where
  | line (markup : Text)
  | table (title : Text) (columns : List Text) (rows : List (List Text))

namespace Console

open Pattern

/-- Something that would be read as a tag, with the backslashes before it. -/
def tag : Rewrite :=
  ⟨group 1 (span (· == '\\')) ++
      group 2 ("[" ++ one (fun c => c.isLower || anyOf "#/@" c) ++ fewest (· != '[') ++ "]"),
    fun m => m.group 1 ++ m.group 1 ++ ['\\'] ++ m.group 2⟩

/-- A backslash doubled if it stands alone at the end. -/
def closeEnd (t : Text) : Text :=
  if t.getLast? == some '\\' && t.dropLast.getLast? != some '\\' then t ++ ['\\'] else t

/-- Text that is shown as it is. -/
def escape (t : Text) : Text := closeEnd (tag.apply t)

/-- A sequence that controls a terminal. -/
def control : Rewrite := ⟨"\x1b[" ++ span (anyOf ";?0123456789") ++ one Char.isAlpha, fun _ => []⟩

/-- A text as it is printed: as a line, and without what would control a terminal. -/
def printed (t : Text) : Text := control.apply t ++ ['\n']

end Console

end LessonText
