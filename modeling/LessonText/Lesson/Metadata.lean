import LessonText.Text.Entries
import LessonText.Text.Escape
import LessonText.Unicode.Case

/-! # Metadata

The header of a lesson names values that the lesson may use. Keys are kept in upper case and values
escaped for a page; an entry given again replaces the value and keeps the place.
-/

namespace LessonText

/-- Entries in the order in which their keys first appear. -/
structure Metadata where
  entries : Entries Text := []

namespace Metadata

open Unicode

def insert (m : Metadata) (key value : Text) : Metadata := ⟨m.entries.insert key value⟩

/-- A sign between a key and its value. -/
def isSeparator (c : Char) : Bool := c == ':' || c == ';' || c == '.'

/-- A hyphen that may follow the sign. -/
def dropHyphen : Text → Text
  | '-' :: rest => rest
  | t => t

/-- The key and the value of a header line: a word, a sign with any spacing, and the value. -/
def readLine? (line : Text) : Option (Text × Text) :=
  let line := Text.trimStart line
  let key := line.takeWhile isWord
  match key, Text.trimStart (line.dropWhile isWord) with
  | _ :: _, c :: rest => if isSeparator c then some (key, Text.trim (dropHyphen rest)) else none
  | _, _ => none

/-- Take the entry of a header line, if it has one. -/
def addLine (m : Metadata) (line : Text) : Metadata :=
  match readLine? line with
  | some (key, value) => m.insert (upperText key) (Escape.html value)
  | none => m

/-- The metadata of a header. Lines that are no entries may stand in it. -/
def ofHeader (header : Text) : Metadata := (Text.headerLines header).foldl addLine {}

def size (m : Metadata) : Nat := m.entries.length

/-- The value of a key in whatever case. -/
def get? (m : Metadata) (key : Text) : Option Text := m.entries.lookup (upperText key)

def contains (m : Metadata) (key : Text) : Bool := (m.get? key).isSome

end Metadata

end LessonText
