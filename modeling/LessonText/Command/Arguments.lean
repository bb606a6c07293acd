import LessonText.Text.Basic

/-! # Arguments

The command line: an option for the program, the name of a command, and the options and texts of
the command. Options and texts of a command may be mixed; two hyphens end the options.
-/

namespace LessonText

inductive Switch where
  | verbose
  | json
  | output
  | spans
  deriving DecidableEq

/-- How an option is written, and whether a value follows it. -/
structure SwitchForm where
  switch : Switch
  long : Text
  short : Option Char := none
  takesValue : Bool := false

/-- The options given, each with its value if it takes one, and the texts given. -/
structure Arguments where
  switches : List (Switch × Text) := []
  texts : List Text := []

namespace Arguments

def has (a : Arguments) (switch : Switch) : Bool := (a.switches.lookup switch).isSome

/-- The value of an option; the last one counts. -/
def value? (a : Arguments) (switch : Switch) : Option Text := a.switches.reverse.lookup switch

/-- The options in a group of single letters, and the option that still needs a value. -/
def readLetters? (forms : List SwitchForm) : Text → Option (List (Switch × Text) × Option Switch)
  | [] => some ([], none)
  | letter :: rest => do
    let form ← forms.find? (·.short == some letter)
    if form.takesValue then
      if rest.isEmpty then return ([], some form.switch)
      return ([(form.switch, rest)], none)
    let (switches, open?) ← readLetters? forms rest
    return ((form.switch, []) :: switches, open?)

/-- The option of a word that begins with two hyphens, which are dropped, and its value; or the
    option that still needs a value. -/
def readLong? (forms : List SwitchForm) (word : Text) :
    Option (List (Switch × Text) × Option Switch) := do
  let name := word.takeWhile (· != '=')
  let form ← forms.find? (·.long == name)
  match word.dropWhile (· != '='), form.takesValue with
  | [], false => return ([(form.switch, [])], none)
  | [], true => return ([], some form.switch)
  | _ :: value, true => return ([(form.switch, value)], none)
  | _ :: _, false => none

/-- What the first characters of a word say about it. -/
inductive Word where
  | text
  | ending
  | long (word : Text)
  | letters (letters : Text)

def Word.of : Text → Word
  | ['-', '-'] => .ending
  | '-' :: '-' :: word => .long word
  | '-' :: letter :: rest => .letters (letter :: rest)
  | _ => .text

/-- Read words with the options that have the given forms. If texts and options may not be mixed,
    the first text ends the options. -/
def read? (forms : List SwitchForm) (mixed : Bool) : List Text → Option Arguments
  | [] => some {}
  | word :: rest =>
    let option (found : Option (List (Switch × Text) × Option Switch)) : Option Arguments := do
      match ← found with
      | (switches, none) =>
        let later ← read? forms mixed rest
        return { later with switches := switches ++ later.switches }
      | (switches, some switch) =>
        match rest with
        | [] => none
        | value :: rest =>
          let later ← read? forms mixed rest
          return { later with switches := switches ++ (switch, value) :: later.switches }
    match Word.of word with
    | .ending => some ⟨[], rest⟩
    | .long name => option (readLong? forms name)
    | .letters letters => option (readLetters? forms letters)
    | .text =>
      if mixed then do
        let later ← read? forms mixed rest
        return { later with texts := word :: later.texts }
      else some ⟨[], word :: rest⟩

end Arguments

/-- The commands of the program. -/
inductive CommandName where
  | compile
  | render
  | metadata
  deriving DecidableEq

namespace CommandName

def ofText? (t : Text) : Option CommandName :=
  if t = ("compile" : Text) then some .compile
  else if t = ("render" : Text) then some .render
  else if t = ("metadata" : Text) then some .metadata
  else none

end CommandName

/-- A command with its arguments. -/
inductive Command where
  /-- Compile a lesson file, and show it, print it as JSON, or write it to a file. -/
  | compile (path : Text) (json : Bool) (output : Option Text)
  /-- Render a text. -/
  | render (text : Text) (spans : Bool)
  /-- Show the metadata of a lesson file. -/
  | metadata (path : Text)

namespace Command

/-- The options of a command. -/
def forms : CommandName → List SwitchForm
  | .compile =>
    [{ switch := .json, long := "json" },
      { switch := .output, long := "output", short := some 'o', takesValue := true }]
  | .render => [{ switch := .spans, long := "spans" }]
  | .metadata => []

/-- A text that may name a file. -/
def isPath (t : Text) : Bool := !t.contains '\x00'

/-- Read the words after the name of a command. Every command takes one text. -/
def read? (name : CommandName) (words : List Text) : Option Command := do
  let a ← Arguments.read? (forms name) true words
  match a.texts, name with
  | [path], .compile =>
    let output := a.value? .output
    if isPath path && output.all isPath then some (.compile path (a.has .json) output) else none
  | [text], .render => return .render text (a.has .spans)
  | [path], .metadata => if isPath path then some (.metadata path) else none
  | _, _ => none

end Command

/-- The start of a command line: whether debugging notices are wanted, the name of the command, and
    the words after it. -/
structure CommandLine where
  verbose : Bool
  name : CommandName
  words : List Text

namespace CommandLine

def forms : List SwitchForm := [{ switch := .verbose, long := "verbose", short := some 'v' }]

def read? (words : List Text) : Option CommandLine := do
  let a ← Arguments.read? forms false words
  match a.texts with
  | [] => none
  | name :: rest => return ⟨a.has .verbose, ← CommandName.ofText? name, rest⟩

end CommandLine

end LessonText
