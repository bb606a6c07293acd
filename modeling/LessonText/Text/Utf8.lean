import LessonText.Text.Basic

/-! # UTF-8

Characters as bytes, and bytes as characters. Reading goes on after a malformed sequence: the
longest start of a sequence that could have been valid counts as one fault.
-/

namespace LessonText

abbrev Bytes := List UInt8

namespace Utf8

/-- The bytes of one character. -/
def encodeChar (c : Char) : Bytes :=
  let n := c.toNat
  let tail (shift : Nat) : Nat := 0x80 + n / shift % 0x40
  let bytes :=
    if n < 0x80 then [n]
    else if n < 0x800 then [0xC0 + n / 0x40, tail 1]
    else if n < 0x10000 then [0xE0 + n / 0x1000, tail 0x40, tail 1]
    else [0xF0 + n / 0x40000, tail 0x1000, tail 0x40, tail 1]
  bytes.map UInt8.ofNat

def encode (t : Text) : Bytes := t.flatMap encodeChar

/-- What a lead byte begins: its own bits, how many bytes follow, and the range of the first of
    them. The ranges leave out long forms, surrogates and numbers beyond U+10FFFF. -/
def lead? (b : UInt8) : Option (Nat × Nat × Nat × Nat) :=
  let n := b.toNat
  if n < 0xC2 then none
  else if n < 0xE0 then some (n - 0xC0, 1, 0x80, 0xBF)
  else if n < 0xF0 then
    some (n - 0xE0, 2, if n = 0xE0 then 0xA0 else 0x80, if n = 0xED then 0x9F else 0xBF)
  else if n < 0xF5 then
    some (n - 0xF0, 3, if n = 0xF0 then 0x90 else 0x80, if n = 0xF4 then 0x8F else 0xBF)
  else none

/-- The character whose leading bits are `value` and which needs `count` more bytes, the first
    between `low` and `high`; and how many of them were valid. -/
def decodeTail (value : Nat) : Nat → Nat → Nat → Bytes → Option Char × Nat
  | 0, _, _, _ => (some (Char.ofNat value), 0)
  | _ + 1, _, _, [] => (none, 0)
  | count + 1, low, high, b :: rest =>
    if low ≤ b.toNat && b.toNat ≤ high then
      let (c, length) := decodeTail (value * 0x40 + b.toNat % 0x40) count 0x80 0xBF rest
      (c, length + 1)
    else (none, 0)

/-- The characters of bytes that begin with `skip` bytes already read; a fault is `none`. -/
def decodeFrom : Nat → Bytes → List (Option Char)
  | _, [] => []
  | skip + 1, _ :: rest => decodeFrom skip rest
  | 0, b :: rest =>
    if b.toNat < 0x80 then some (Char.ofNat b.toNat) :: decodeFrom 0 rest
    else match lead? b with
      | none => none :: decodeFrom 0 rest
      | some (bits, count, low, high) =>
        let (c, length) := decodeTail bits count low high rest
        c :: decodeFrom length rest

/-- The text of bytes, if they have no fault. -/
def decode? (bytes : Bytes) : Option Text := (decodeFrom 0 bytes).mapM id

/-- The text of bytes, with U+FFFD for every fault. -/
def decodeLossy (bytes : Bytes) : Text := (decodeFrom 0 bytes).map (·.getD '\uFFFD')

end Utf8

end LessonText
