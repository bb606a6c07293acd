import LessonText.Text.Utf8

/-! # Base64

Three bytes are written as four characters. Reading is lenient: characters outside the alphabet
are passed over, and what follows a completed padding is not read.
-/

namespace LessonText.Base64

/-- The character of a number below sixty-four. -/
def sextetChar (n : Nat) : Char :=
  Char.ofNat <|
    if n < 26 then 0x41 + n
    else if n < 52 then 0x61 + (n - 26)
    else if n < 62 then 0x30 + (n - 52)
    else if n = 62 then 0x2B
    else 0x2F

/-- The number of a character of the alphabet. -/
def sextet? (c : Char) : Option Nat :=
  if c.isUpper then some (c.toNat - 0x41)
  else if c.isLower then some (c.toNat - 0x61 + 26)
  else if c.isDigit then some (c.toNat - 0x30 + 52)
  else if c = '+' then some 62
  else if c = '/' then some 63
  else none

/-- A character of the alphabet, padding apart. -/
def isSextet (c : Char) : Bool := (sextet? c).isSome

def encode : Bytes → Text
  | [] => []
  | [a] => [sextetChar (a.toNat / 4), sextetChar (a.toNat % 4 * 16), '=', '=']
  | [a, b] =>
    [sextetChar (a.toNat / 4), sextetChar (a.toNat % 4 * 16 + b.toNat / 16),
      sextetChar (b.toNat % 16 * 4), '=']
  | a :: b :: c :: rest =>
    sextetChar (a.toNat / 4) :: sextetChar (a.toNat % 4 * 16 + b.toNat / 16) ::
      sextetChar (b.toNat % 16 * 4 + c.toNat / 64) :: sextetChar (c.toNat % 64) :: encode rest

/-- Why a text cannot be read. -/
inductive DecodeError where
  /-- One character is left over after the given number of complete groups of four. -/
  | leftover (groups : Nat)
  /-- Two or three characters are left over without their padding. -/
  | padding

def DecodeError.message : DecodeError → Text
  | leftover groups =>
    "Invalid base64-encoded string: number of data characters (" ++ Text.decimal (4 * groups + 1) ++
      ") cannot be 1 more than a multiple of 4"
  | padding => "Incorrect padding"

/-- The bytes that the first characters of a group already determine. -/
def partialBytes : List Nat → Bytes
  | [v, w] => [UInt8.ofNat (v * 4 + w / 16)]
  | [v, w, x] => [UInt8.ofNat (v * 4 + w / 16), UInt8.ofNat (w % 16 * 16 + x / 4)]
  | _ => []

/-- Read on after `groups` complete groups, the numbers of an incomplete one, and the padding
    characters that directly precede. -/
def decodeFrom : Nat → List Nat → Nat → Text → Except DecodeError Bytes
  | groups, held, _, [] =>
    match held with
    | [] => .ok []
    | [_] => .error (.leftover groups)
    | _ => .error .padding
  | groups, held, pads, c :: rest =>
    if c = '=' then
      if 2 ≤ held.length then
        if 4 ≤ held.length + pads + 1 then .ok (partialBytes held)
        else decodeFrom groups held (pads + 1) rest
      else decodeFrom groups held pads rest
    else match sextet? c with
      | none => decodeFrom groups held pads rest
      | some n =>
        match held with
        | [v, w, x] => do
          let bytes ← decodeFrom (groups + 1) [] 0 rest
          return UInt8.ofNat (v * 4 + w / 16) :: UInt8.ofNat (w % 16 * 16 + x / 4) ::
            UInt8.ofNat (x % 4 * 64 + n) :: bytes
        | _ => decodeFrom groups (held ++ [n]) 0 rest

def decode (t : Text) : Except DecodeError Bytes := decodeFrom 0 [] 0 t

end LessonText.Base64
