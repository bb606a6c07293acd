import LessonText.Pattern.Basic
import LessonText.Unicode.Case
import LessonText.Unicode.Digit
import LessonText.Unicode.Word

/-! # Character classes and places

The classes and the conditions on a place that patterns are built from. A class whose name ends in
`Fold` ignores letter case in the sense of Unicode, so that it also holds of the few letters outside
ASCII that differ from an ASCII letter in case alone.
-/

namespace LessonText.Pattern

open Unicode

/-- A character of a list. -/
def anyOf (chars : Text) (c : Char) : Bool := chars.contains c

/-- A character outside a list. -/
def noneOf (chars : Text) (c : Char) : Bool := !chars.contains c

/-- Any character at all. -/
def anything (_ : Char) : Bool := true

/-- A character that is no newline. -/
def inLine (c : Char) : Bool := c != '\n'

def notSpace (c : Char) : Bool := !isSpace c

/-- A space or a tab. -/
def isGap (c : Char) : Bool := c == ' ' || c == '\t'

/-- An ASCII letter, or a letter that differs from one in case alone. -/
def letterFold (c : Char) : Bool :=
  let l := lower c
  l.isLower || l == 'ı' || l == 'ſ'

/-- Exactly the given text, but for letter case. -/
def literalFold : Text → Pattern
  | [] => empty
  | c :: rest => one (sameLetter c) ++ literalFold rest

/-! ## Places -/

/-- The start of the text. -/
def textStart : Pattern := place fun before _ => before.isNone

/-- The start of a line. -/
def lineStart : Pattern := place fun before _ => before.all (· == '\n')

/-- The end of the text. -/
def textEnd : Pattern := place fun _ ahead => ahead.isEmpty

/-- The end of a line. -/
def lineEnd : Pattern := place fun _ ahead => ahead.head?.all (· == '\n')

/-- No character of a class before. -/
def notPrecededBy (cls : Char → Bool) : Pattern := place fun before _ => !before.any cls

/-- No character of a class ahead. -/
def notFollowedBy (cls : Char → Bool) : Pattern := place fun _ ahead => !ahead.head?.any cls

/-- A character of a class ahead. -/
def followedBy (cls : Char → Bool) : Pattern := place fun _ ahead => ahead.head?.any cls

/-- A pattern that does not match ahead. -/
def notAhead (p : Pattern) : Pattern := ahead false p

end LessonText.Pattern
