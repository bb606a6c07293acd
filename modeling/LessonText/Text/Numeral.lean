import LessonText.Text.Basic

/-! # Numerals

The whole number that a text writes. White space may stand around it, zeros before it and a point
with zeros after it, and underscores may separate its digits.
-/

namespace LessonText.Numeral

/-- A text without the white space around it. -/
def trim (t : Text) : Text :=
  ((t.dropWhile Unicode.isPlainSpace).reverse.dropWhile Unicode.isPlainSpace).reverse

/-- A numeral without a plus sign before it. A plus sign directly before a minus sign stays. -/
def dropPlus : Text → Text
  | '+' :: '-' :: t => '+' :: '-' :: t
  | '+' :: t => t
  | t => t

/-- The rest of a numeral from what counts in it, after zeros and underscores of which `last` is the
    last one. It stays if nothing comes between it and the point or the end. -/
def fromZeros (last : Char) : Text → Option Text
  | [] => some [last]
  | c :: rest =>
    if c = '0' || c = '_' then fromZeros c rest
    else if c = '.' then some (last :: c :: rest)
    else if c.isDigit || c = '-' then some (c :: rest)
    else none

/-- A numeral without the zeros before it. A minus sign may stand before the zeros or after them. -/
def dropZeros? : Text → Option Text
  | [] => none
  | c :: rest =>
    if c = '0' then fromZeros c rest
    else if c.isDigit || c = '-' then some (c :: rest)
    else none

/-- A numeral without its point and the zeros after it, of which there is at least one. -/
def dropFraction? (t : Text) : Option Text :=
  match t.dropWhile (· != '.') with
  | [] => some t
  | _ :: zeros =>
    if !zeros.isEmpty && zeros.all (· == '0') then some (t.takeWhile (· != '.')) else none

/-- A numeral without underscores, none of which stands at an end or beside another. -/
def dropUnderscores? (t : Text) : Option Text :=
  if t.head? == some '_' || t.getLast? == some '_' || (t.zip t.tail).contains ('_', '_') then none
  else some (t.filter (· != '_'))

def digits? (t : Text) : Option Nat :=
  if t.isEmpty || !t.all Char.isDigit then none
  else some (t.foldl (fun n c => n * 10 + (c.toNat - '0'.toNat)) 0)

/-- Digits with an optional minus sign. -/
def signed? : Text → Option Int
  | '-' :: t => (digits? t).map fun n => -(n : Int)
  | t => (digits? t).map Int.ofNat

/-- The whole number that a text writes. -/
def integer? (t : Text) : Option Int := do
  let t ← dropZeros? (dropPlus (trim t))
  let t ← dropFraction? t
  signed? (← dropUnderscores? t)

end LessonText.Numeral
