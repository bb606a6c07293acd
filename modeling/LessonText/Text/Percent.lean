import LessonText.Text.Utf8

/-! # Percent encoding

A text as ASCII: every byte of a character that is not safe becomes a percent sign and two
hexadecimal digits.
-/

namespace LessonText.Percent

/-- Characters that stand for themselves. -/
def isSafe (c : Char) : Bool := c.isAlphanum || "-_.!~*'()".toList.contains c

/-- The upper-case hexadecimal digit of a number below sixteen. -/
def hexDigit (n : Nat) : Char := Char.ofNat (if n < 10 then 0x30 + n else 0x37 + n)

/-- The number of a hexadecimal digit of either case. -/
def hexValue? (c : Char) : Option Nat :=
  if c.isDigit then some (c.toNat - 0x30)
  else if 'A' ≤ c && c ≤ 'F' then some (c.toNat - 0x37)
  else if 'a' ≤ c && c ≤ 'f' then some (c.toNat - 0x57)
  else none

def encodeByte (b : UInt8) : Text := ['%', hexDigit (b.toNat / 16), hexDigit (b.toNat % 16)]

def encodeChar (c : Char) : Text :=
  if isSafe c then [c] else (Utf8.encodeChar c).flatMap encodeByte

def encode (t : Text) : Text := t.flatMap encodeChar

/-- The byte of two hexadecimal digits. -/
def hexByte? (high low : Char) : Option UInt8 := do
  return UInt8.ofNat ((← hexValue? high) * 16 + (← hexValue? low))

/-- The bytes of an encoded ASCII text. A percent sign without two digits stands for itself. -/
def bytesFrom : Nat → Text → Bytes
  | _, [] => []
  | skip + 1, _ :: rest => bytesFrom skip rest
  | 0, c :: rest =>
    match c, rest with
    | '%', high :: low :: _ =>
      match hexByte? high low with
      | some b => b :: bytesFrom 2 rest
      | none => UInt8.ofNat c.toNat :: bytesFrom 0 rest
    | _, _ => UInt8.ofNat c.toNat :: bytesFrom 0 rest

/-- The text of an encoded ASCII text. -/
def decode (t : Text) : Text := Utf8.decodeLossy (bytesFrom 0 t)

end LessonText.Percent
