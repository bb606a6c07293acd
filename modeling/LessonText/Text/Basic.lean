import LessonText.Unicode.Space

/-! # Text

A text is the list of its characters, so that every rule below is a recursion on a list. A string
literal stands for its text.
-/

namespace LessonText

abbrev Text := List Char

instance : Coe String Text := ⟨String.toList⟩

namespace Text

open Unicode

/-- What holds of each character of a text is decided along the text, and not over all characters. -/
instance (priority := high) decidableForallMem (t : Text) (p : Char → Prop) [DecidablePred p] : Decidable (∀ c ∈ t, p c) :=
  List.decidableBAll p t

/-- Drop white space at the start. -/
def trimStart (t : Text) : Text := t.dropWhile isSpace

/-- Drop white space at the end. -/
def trimEnd (t : Text) : Text := (t.reverse.dropWhile isSpace).reverse

/-- Drop white space at both ends. -/
def trim (t : Text) : Text := trimEnd (trimStart t)

/-- White space and nothing else. -/
def isBlank (t : Text) : Bool := t.all isSpace

/-- The decimal numeral of a number. -/
def decimal (n : Nat) : Text := Nat.toDigits 10 n

/-- Pieces joined by a separator. -/
def join (separator : Text) : List Text → Text
  | [] => []
  | [t] => t
  | t :: rest => t ++ separator ++ join separator rest

/-- The first character put in front of the first line. -/
def consLine (c : Char) : List Text → List Text
  | [] => [[c]]
  | line :: rest => (c :: line) :: rest

/-- The lines between newlines. A carriage return directly before a newline belongs to it. -/
def newlineLines : Text → List Text
  | [] => [[]]
  | '\r' :: '\n' :: rest => [] :: newlineLines rest
  | c :: rest => if c = '\n' then [] :: newlineLines rest else consLine c (newlineLines rest)

/-- The lines of a header: any line break ends one, and the end of the text does not begin another. -/
def headerLines : Text → List Text
  | [] => []
  | '\r' :: '\n' :: rest => [] :: headerLines rest
  | c :: rest => if isLineBreak c then [] :: headerLines rest else consLine c (headerLines rest)

/-- Every line break written as a newline. -/
def unifyNewlines : Text → Text
  | [] => []
  | '\r' :: '\n' :: rest => '\n' :: unifyNewlines rest
  | c :: rest => (if c = '\r' then '\n' else c) :: unifyNewlines rest

end Text

end LessonText
