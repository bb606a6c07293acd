import LessonText.Text.Basic
import LessonText.Unicode.Printable

/-! # Quoted text in messages

A message shows a text between single quotes, or between double quotes if it holds single ones only.
What could not be seen is written as an escape.
-/

namespace LessonText.Quoted

/-- A number in lower-case hexadecimal, with leading zeros up to a width. -/
def hexadecimal (width n : Nat) : Text :=
  let digits := Nat.toDigits 16 n
  List.replicate (width - digits.length) '0' ++ digits

def escapeChar (quote c : Char) : Text :=
  if c = quote || c = '\\' then ['\\', c]
  else if c = '\n' then "\\n"
  else if c = '\r' then "\\r"
  else if c = '\t' then "\\t"
  else if c = ' ' || Unicode.isPrintable c then [c]
  else if c.toNat < 0x100 then "\\x" ++ hexadecimal 2 c.toNat
  else if c.toNat < 0x10000 then "\\u" ++ hexadecimal 4 c.toNat
  else "\\U" ++ hexadecimal 8 c.toNat

/-- A text as a message shows it. -/
def quote (t : Text) : Text :=
  let mark := if t.contains '\'' && !t.contains '"' then '"' else '\''
  mark :: t.flatMap (escapeChar mark) ++ [mark]

end LessonText.Quoted
