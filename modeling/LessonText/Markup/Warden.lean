import LessonText.Text.Attribute
import LessonText.Text.Piece
import LessonText.Unicode.Digit

/-! # The warden

While a text is rendered, finished markup is kept away from later rules: a warden takes it into
custody and gives a key for it, which stands in the text until the markup is put back.

A key is the number of keys issued before and the hidden form of the markup, between two delimiters.
The hidden form never begins with a digit, so the number can be read off the key.
-/

namespace LessonText

/-- The number of keys issued, and the pending keys with what they stand for. -/
structure Warden where
  issued : Nat := 0
  wards : List (Text × Text) := []

/-- A text with keys put back, the warden after that, and the keys that were not pending. -/
structure Recovery where
  text : Text
  warden : Warden
  missing : List Text

namespace Warden

def delimiter : Text := "???"

/-- The hidden form of data, with colons for padding: an equals sign could underline a heading. -/
def code (data : Text) : Text := (Attribute.encode data).map fun c => if c = '=' then ':' else c

/-- The key issued for data as the given number. -/
def keyFor (number : Nat) (data : Text) : Text :=
  delimiter ++ Text.decimal number ++ code data ++ delimiter

/-- Take data into custody, and give its key. There is nothing to guard in empty data. -/
def protect (w : Warden) (data : Text) : Text × Warden :=
  if data.isEmpty then (data, w)
  else
    let key := keyFor w.issued data
    (key, ⟨w.issued + 1, (key, data) :: w.wards⟩)

/-- Give back what a key stands for, and release it. An unknown key stands for itself. -/
def retrieve (w : Warden) (key : Text) : Recovery :=
  match w.wards.lookup key with
  | some data => ⟨data, { w with wards := w.wards.filter (·.1 != key) }, []⟩
  | none => ⟨key, w, [key]⟩

/-- The length of the code at the start of a text, after a number written in `digits`. The last
    digits may belong to the code. -/
def codeLength? (digits t : Text) : Option Nat :=
  let code := t.takeWhile Base64.isSextet
  let padding := (t.dropWhile Base64.isSextet).takeWhile (· == ':')
  if code.isEmpty && !(2 ≤ digits.length && digits.getLast?.any Base64.isSextet) then none
  else if 2 < padding.length then none
  else some (code.length + padding.length)

/-- A text of the form of a key at the start of a text. -/
def findKey : Finder Text
  | _, '?' :: '?' :: '?' :: rest => do
    let digits := rest.takeWhile Unicode.isDigit
    if digits.isEmpty then none
    let afterNumber := rest.dropWhile Unicode.isDigit
    let length ← codeLength? digits afterNumber
    if (afterNumber.drop length).take 3 == delimiter then
      let total := digits.length + length + 6
      some (('?' :: '?' :: '?' :: rest).take total, total)
    else none
  | _, _ => none

/-- Put back the keys among pieces, from left to right. What comes back is not searched again. -/
def recover : Warden → List (Piece Text) → Recovery
  | w, [] => ⟨[], w, []⟩
  | w, .plain c :: rest =>
    let later := w.recover rest
    { later with text := c :: later.text }
  | w, .found key :: rest =>
    let first := w.retrieve key
    let later := first.warden.recover rest
    ⟨first.text ++ later.text, later.warden, first.missing ++ later.missing⟩

/-- Put back every key of a text. -/
def reinstate (w : Warden) (t : Text) : Recovery := w.recover (t.cut findKey)

/-- What may be asked of a warden. -/
inductive Step where
  | protect (data : Text)
  | retrieve (key : Text)
  | reinstate (t : Text)
  /-- Forget every ward, and count keys from the start. -/
  | clear

/-- One step. A key is the text of a step that protects; there is none of a step that clears. -/
def perform (w : Warden) : Step → Recovery
  | .protect data =>
    let (key, w) := w.protect data
    ⟨key, w, []⟩
  | .retrieve key => w.retrieve key
  | .reinstate t => w.reinstate t
  | .clear => ⟨[], {}, []⟩

end Warden

end LessonText
