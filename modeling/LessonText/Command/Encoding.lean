import LessonText.Text.Utf8

/-! # Encodings of lesson files

The encodings that a lesson file may have, by their names, and the text of its bytes.
-/

namespace LessonText

inductive Encoding where
  | utf8
  /-- UTF-8 in which a mark at the start is dropped. -/
  | utf8Marked
  | latin1
  | ascii

namespace Encoding

/-- The encodings by their own names. -/
def names : List (Text × Encoding) :=
  [("utf_8", .utf8), ("utf_8_sig", .utf8Marked), ("latin_1", .latin1), ("ascii", .ascii)]

/-- The encodings by their other names. -/
def aliases : List (Text × Encoding) :=
  [("u8", .utf8), ("utf", .utf8), ("utf8", .utf8), ("utf8_ucs2", .utf8), ("utf8_ucs4", .utf8),
    ("cp65001", .utf8), ("8859", .latin1), ("cp819", .latin1), ("csisolatin1", .latin1),
    ("ibm819", .latin1), ("iso8859", .latin1), ("iso8859_1", .latin1), ("iso_8859_1", .latin1),
    ("iso_8859_1_1987", .latin1), ("iso_ir_100", .latin1), ("l1", .latin1), ("latin", .latin1),
    ("latin1", .latin1), ("646", .ascii), ("ansi_x3.4_1968", .ascii), ("ansi_x3_4_1968", .ascii),
    ("ansi_x3.4_1986", .ascii), ("cp367", .ascii), ("csascii", .ascii), ("ibm367", .ascii),
    ("iso646_us", .ascii), ("iso_646.irv_1991", .ascii), ("iso_ir_6", .ascii), ("us", .ascii),
    ("us_ascii", .ascii)]

/-- The words of a name in lower case with an underscore between two of them. `started` says that a
    word was passed, and `apart` that something else was passed since. -/
def normalFrom (started apart : Bool) : Text → Text
  | [] => []
  | c :: rest =>
    if c.isAlphanum || c = '.' then
      if started && apart then '_' :: c.toLower :: normalFrom true false rest
      else c.toLower :: normalFrom true false rest
    else normalFrom started true rest

/-- A name whatever its case and the signs around its words. -/
def normalName (name : Text) : Text := normalFrom false false name

/-- The encoding of a name. A point may take the place of an underscore in the other names. -/
def ofName? (name : Text) : Option Encoding :=
  let name := normalName name
  aliases.lookup name <|> aliases.lookup (name.map fun c => if c = '.' then '_' else c) <|>
    names.lookup name

/-- The mark that may begin a UTF-8 file. -/
def mark : Bytes := [0xEF, 0xBB, 0xBF]

/-- Bytes without the mark. A file that ends within the mark is empty. -/
def dropMark (bytes : Bytes) : Bytes :=
  if bytes.isPrefixOf mark then [] else if mark.isPrefixOf bytes then bytes.drop 3 else bytes

/-- Each byte as the character of its number. -/
def characters (bytes : Bytes) : Text := bytes.map fun b => Char.ofNat b.toNat

/-- The text of bytes, if they are valid. -/
def decode? : Encoding → Bytes → Option Text
  | utf8, bytes => Utf8.decode? bytes
  | utf8Marked, bytes => Utf8.decode? (dropMark bytes)
  | latin1, bytes => some (characters bytes)
  | ascii, bytes => if bytes.all (·.toNat < 0x80) then some (characters bytes) else none

end Encoding

end LessonText
