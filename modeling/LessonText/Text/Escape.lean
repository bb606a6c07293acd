import LessonText.Unicode.Word
import LessonText.Text.Basic

/-! # Escaping for a page

Text that is to be shown as it is: no tag can begin in it, and an ampersand only begins an entity.
-/

namespace LessonText.Escape

open Unicode

/-- The null character replaced by the replacement character. -/
def dropNull (t : Text) : Text := t.map fun c => if c = '\x00' then '\uFFFD' else c

/-- A character of an entity between the ampersand and the semicolon. -/
def isEntityChar (c : Char) : Bool := isWord c || c == '#'

/-- The rest of an entity after its ampersand. -/
def beginsEntity (t : Text) : Bool :=
  !(t.takeWhile isEntityChar).isEmpty && (t.dropWhile isEntityChar).head? == some ';'

/-- Escape every ampersand that begins no entity. -/
def ampersands : Text → Text
  | [] => []
  | c :: rest =>
    if c = '&' && !beginsEntity rest then "&amp;" ++ ampersands rest else c :: ampersands rest

/-- Escape every opening angle bracket. -/
def brackets (t : Text) : Text := t.flatMap fun c => if c = '<' then "&lt;" else [c]

/-- Text that is shown as it is. -/
def html (t : Text) : Text := brackets (ampersands (dropNull t))

end LessonText.Escape
