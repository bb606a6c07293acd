import LessonText.Text.Quoted

/-! # JSON

The values that an export is made of, and their text, in one line or indented.
-/

namespace LessonText

inductive Json where
  | text (t : Text)
  | list (items : List Json)
  | object (members : List (Text × Json))

namespace Json

/-- Only quotes, backslashes and control characters are escaped. -/
def escapeChar (c : Char) : Text :=
  if c = '"' then "\\\""
  else if c = '\\' then "\\\\"
  else if c = '\x08' then "\\b"
  else if c = '\t' then "\\t"
  else if c = '\n' then "\\n"
  else if c = '\x0c' then "\\f"
  else if c = '\r' then "\\r"
  else if c.toNat < 0x20 then "\\u" ++ Quoted.hexadecimal 4 c.toNat
  else [c]

def quote (t : Text) : Text := '"' :: t.flatMap escapeChar ++ ['"']

/-- What separates a key from its value, and begins a line at a depth. -/
structure Layout where
  colon : Text
  newline : Nat → Text

namespace Layout

/-- Everything in one line, without spaces. -/
def compact : Layout := ⟨":", fun _ => []⟩

/-- A line for every member, indented by a width for each level. -/
def indented (width : Nat) : Layout :=
  ⟨": ", fun depth => '\n' :: List.replicate (depth * width) ' '⟩

end Layout

/-- Written members between brackets, each on its line; brackets alone if there are none. -/
def enclose (layout : Layout) (depth : Nat) (opening closing : Char) (members : List Text) : Text :=
  if members.isEmpty then [opening, closing]
  else
    opening :: Text.join [','] (members.map fun t => layout.newline (depth + 1) ++ t) ++
      layout.newline depth ++ [closing]

mutual
/-- The text of a value at a depth. -/
def write (layout : Layout) (depth : Nat) : Json → Text
  | .text t => quote t
  | .list items => enclose layout depth '[' ']' (writeItems layout (depth + 1) items)
  | .object members =>
    enclose layout depth '\x7b' '\x7d' (writeMembers layout (depth + 1) members)

def writeItems (layout : Layout) (depth : Nat) : List Json → List Text
  | [] => []
  | item :: rest => write layout depth item :: writeItems layout depth rest

def writeMembers (layout : Layout) (depth : Nat) : List (Text × Json) → List Text
  | [] => []
  | (key, value) :: rest =>
    (quote key ++ layout.colon ++ write layout depth value) :: writeMembers layout depth rest
end

/-- The text of a value: indented by a width, or in one line. -/
def render (indent : Option Nat) (value : Json) : Text :=
  match indent with
  | some width => value.write (.indented width) 0
  | none => value.write .compact 0

end Json

end LessonText
