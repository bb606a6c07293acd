import LessonText.Text.Piece

/-! # Numeric entities

A character written as its decimal number, as in `&#42;`, and the reading of such entities.
-/

namespace LessonText.Entity

def encodeChar (c : Char) : Text := "&#" ++ Text.decimal c.toNat ++ ";"

def encode (t : Text) : Text := t.flatMap encodeChar

/-- Why a text cannot be encoded or decoded. -/
inductive Error where
  /-- There is no first character. -/
  | noCharacter
  /-- A number is beyond the last character. -/
  | outOfRange (number : Nat)

def Error.message : Error → Text
  | noCharacter => "string index out of range"
  | outOfRange _ => "chr() arg not in range(0x110000)"

/-- The entity of the first character. -/
def encodeFirst : Text → Except Error Text
  | [] => .error .noCharacter
  | c :: _ => .ok (encodeChar c)

/-- The number that decimal digits write. -/
def numberOf (digits : Text) : Nat := Nat.ofDigitChars 10 digits 0

/-- An entity of one to seven digits at the start of a text. -/
def find : Finder Nat
  | _, '&' :: '#' :: rest =>
    let digits := rest.takeWhile Char.isDigit
    if 1 ≤ digits.length && digits.length ≤ 7 && (rest.dropWhile Char.isDigit).head? == some ';' then
      some (numberOf digits, digits.length + 3)
    else none
  | _, _ => none

def decodeNumber (number : Nat) : Except Error Text :=
  if number ≤ 0x10FFFF then .ok [Char.ofNat number] else .error (.outOfRange number)

/-- Every entity replaced by its character. -/
def decode (t : Text) : Except Error Text := Piece.assembleM decodeNumber (t.cut find)

end LessonText.Entity
