import LessonText.Text.Base64
import LessonText.Text.Percent

/-! # Attribute values

A value placed in an attribute is percent encoded and then written in base64, so that it cannot end
the attribute and a reader of the page does not see it. Reading undoes both.
-/

namespace LessonText.Attribute

/-- Why a value cannot be read back. -/
inductive DecodeError where
  | notAscii
  | base64 (cause : Base64.DecodeError)
  /-- The bytes are not ASCII. -/
  | notText

def DecodeError.message : DecodeError → Text
  | notAscii => "string argument should contain only ASCII characters"
  | base64 cause => cause.message
  | notText => []

/-- The bytes of an ASCII text. -/
def asciiBytes (t : Text) : Bytes := t.map fun c => UInt8.ofNat c.toNat

def isAscii (c : Char) : Bool := c.toNat < 0x80

/-- Hide a value. -/
def encode (t : Text) : Text := Base64.encode (asciiBytes (Percent.encode t))

/-- The value that was hidden. -/
def decode (t : Text) : Except DecodeError Text := do
  unless t.all isAscii do throw .notAscii
  let bytes ← (Base64.decode t).mapError .base64
  let text := bytes.map fun b => Char.ofNat b.toNat
  unless text.all isAscii do throw .notText
  return Percent.decode text

/-- An attribute that carries a message without showing it. -/
def hiddenError (message : Text) : Text := "data-error=\"" ++ encode message ++ "\""

end LessonText.Attribute
