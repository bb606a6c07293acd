import LessonText.Pattern.Class
import LessonText.Pattern.Rewrite
import LessonText.Text.Entries

/-! # Settings files

A settings file gives a value to a variable as `name=value`. Both may stand in quotes, between which
a value may run over lines. A line that cannot be read is passed over. A value may refer to variables
of the file before it and of the environment.
-/

namespace LessonText

/-- Variables with their values; a variable may be named without a value. -/
abbrev Bindings := Entries (Option Text)

namespace SettingsFile

open Pattern Unicode

/-- White space within a line. -/
def isBlank (c : Char) : Bool := isSpace c && c != '\n'

/-! ## Reading

Each function reads something at the start of a text and gives the text after it, or else the text
that it cannot read.
-/

/-- Read what group 1 of a pattern holds. -/
def readGroup (p : Pattern) (t : Text) : Except Text (Text × Text) :=
  match p.matchAt t.length 0 none t with
  | some (m, length) => .ok (m.group 1, t.drop length)
  | none => .error t

/-- The word that may stand before a name. -/
def exportMark : Pattern := "export" ++ span1 isBlank

/-- A text without the word that may stand before a name. -/
def dropExport (t : Text) : Text :=
  match exportMark.matchAt t.length 0 none t with
  | some (_, length) => t.drop length
  | none => t

/-- Read the name of a variable. A remark stands in the place of one. -/
def readName : Text → Except Text (Option Text × Text)
  | '#' :: rest => .ok (none, '#' :: rest)
  | '\'' :: rest => do
    let (name, t) ← readGroup ("'" ++ group 1 (span1 (· != '\'')) ++ "'") ('\'' :: rest)
    return (some name, t)
  | t => do
    let (name, t) ← readGroup (group 1 (span1 fun c => !isSpace c && !anyOf "=#" c)) t
    return (some name, t)

/-- A value between quotes. A backslash keeps a quote from ending it, unless no other quote does. -/
def quoted (quote : Char) : Pattern :=
  one (· == quote) ++
    group 1 (many true (one (· == '\\') ++ one (· == quote) ||| one (· != quote))) ++
    one (· == quote)

/-- What a character stands for after a backslash. -/
abbrev Escapes := List (Char × Char)

def singleEscapes : Escapes := [('\\', '\\'), ('\'', '\'')]

def doubleEscapes : Escapes :=
  singleEscapes ++
    [('"', '"'), ('a', '\x07'), ('b', '\x08'), ('f', '\x0C'), ('n', '\n'), ('r', '\r'), ('t', '\t'),
      ('v', '\x0B')]

/-- A text with its escapes resolved. Any other backslash stands for itself. -/
def unescape (escapes : Escapes) : Text → Text
  | [] => []
  | '\\' :: c :: rest =>
    match escapes.lookup c with
    | some meant => meant :: unescape escapes rest
    | none => '\\' :: unescape escapes (c :: rest)
  | c :: rest => c :: unescape escapes rest

/-- A text up to the first number sign that white space stands before; `before` is the character
    before the text. -/
def dropRemark (before : Option Char) : Text → Text
  | [] => []
  | c :: rest =>
    if c = '#' && before.any isSpace then [] else c :: dropRemark (some c) rest

/-- Read a value, with the white space before it. -/
def readValue (t : Text) : Except Text (Text × Text) :=
  match t.dropWhile isBlank with
  | '\'' :: rest => do
    let (value, t) ← readGroup (quoted '\'') ('\'' :: rest)
    return (unescape singleEscapes value, t)
  | '"' :: rest => do
    let (value, t) ← readGroup (quoted '"') ('"' :: rest)
    return (unescape doubleEscapes value, t)
  | _ => .ok (Text.trim (dropRemark none (t.takeWhile inLine)), t.dropWhile inLine)

/-- Read a value if an equals sign stands before it. -/
def readAssignment (t : Text) : Except Text (Option Text × Text) :=
  match t.dropWhile isBlank with
  | '=' :: rest => do
    let (value, t) ← readValue rest
    return (some value, t)
  | t => .ok (none, t)

/-- A text without the remark that it may begin with. -/
def passRemark (t : Text) : Text :=
  match t.dropWhile isBlank with
  | '#' :: rest => rest.dropWhile inLine
  | t => t

/-- Read what may stand between a value and the next line. -/
def readEnd (t : Text) : Except Text Text :=
  match passRemark t with
  | [] => .ok []
  | '\n' :: rest => .ok rest
  | t => .error t

/-- Read the name and the value that a line gives. -/
def readLine (t : Text) : Except Text (Option (Text × Option Text) × Text) := do
  let (name, t) ← readName (dropExport t)
  let (value, t) ← readAssignment t
  let t ← readEnd t
  return (name.map fun name => (name, value), t)

/-- Names and values in the order of the file, of at most `bound` lines. -/
def linesFrom : Nat → Text → List (Text × Option Text)
  | 0, _ => []
  | bound + 1, t =>
    match t.dropWhile isSpace with
    | [] => []
    | c :: rest =>
      match readLine (c :: rest) with
      | .ok (line, t) => line.toList ++ linesFrom bound t
      | .error t => linesFrom bound (t.dropWhile inLine)

/-- Names and values in the order of the file. A line passes at least one character, so that the
    length of the text bounds their number. -/
def lines (t : Text) : List (Text × Option Text) := linesFrom t.length t

/-- A reference in a value: group 1 is the name, group 2 what stands for it if it is unknown. -/
def reference : Pattern :=
  "$\x7b" ++ group 1 (span fun c => c != '\x7d' && c != ':') ++
    optional (":-" ++ group 2 (span (· != '\x7d'))) ++ "\x7d"

/-- What a reference stands for. -/
def resolve (known : Bindings) (m : Match) : Text :=
  match known.lookup (m.group 1) with
  | some value => value.getD []
  | none => m.group 2

/-- A value with what its references stand for. -/
def fill (known : Bindings) (value : Text) : Text := Rewrite.apply ⟨reference, resolve known⟩ value

/-- The variables of a file in an environment, each as it is given last. -/
def variablesOf (environment : Entries Text) (t : Text) : Bindings :=
  let outer := environment.map fun (name, value) => (name, some value)
  (lines t).foldl
    (fun known (name, value) => known.insert name (value.map (fill (known ++ outer)))) []

/-- The names that the values of a file refer to. -/
def references (t : Text) : List Text :=
  (lines t).flatMap fun (_, value) =>
    (reference.pieces (value.getD [])).filterMap fun
      | .plain _ => none
      | .found m => some (m.group 1)

end SettingsFile

end LessonText
