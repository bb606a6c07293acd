import LessonText.Text.Quoted
import LessonText.Unicode.Case

/-! # Marker lines

A lesson is written in blocks, each introduced by a marker line: a letter or sign in round brackets,
which may be repeated, at the start of a line.
-/

namespace LessonText

/-- What a block of a lesson is. -/
inductive Part where
  | intro
  | question
  | right
  | wrong
  | explanation
  /-- A break between problems. -/
  | divider
  deriving DecidableEq

namespace Part

/-- The sign of a part. -/
def sign : Part → Char
  | intro => 'i'
  | question => '?'
  | right => '='
  | wrong => 'x'
  | explanation => '+'
  | divider => '#'

/-- The part of a marker letter in lower case. -/
def ofLetter? : Text → Option Part
  | ['i'] => some intro
  | ['?'] => some question
  | ['='] => some right
  | ['x'] => some wrong
  | ['+'] => some explanation
  | ['&'] => some explanation
  | ['#'] => some divider
  | ['_'] => some divider
  | _ => none

end Part

/-- A line of a lesson: a marker line with what follows the marker, or any other line. -/
inductive Line where
  | marker (part : Part) (content : Text)
  | plain (content : Text)

/-- A marker letter, in lower case, that names no part. -/
inductive MarkerError where
  | unknown (letter : Text)

namespace MarkerError

def message : MarkerError → Text
  | unknown letter => Quoted.quote letter ++ " is not a valid ProblemItemKey"

end MarkerError

namespace Line

open Unicode

/-- The letters and signs of markers. -/
def letters : Text := "i?=x+#&_"

/-- A marker letter, when letter case is ignored. -/
def isLetter (c : Char) : Bool := letters.any fun letter => sameLetter letter c

/-- At most three spaces dropped; none if there are more. -/
def dropIndent? (t : Text) : Option Text :=
  if (t.takeWhile (· == ' ')).length ≤ 3 then some (t.dropWhile (· == ' ')) else none

/-- One or more of a bracket dropped. -/
def dropBrackets? (bracket : Char) (t : Text) : Option Text :=
  if t.head? == some bracket then some (t.dropWhile (· == bracket)) else none

/-- The rest of a line. A newline may end it, and is not part of it. -/
def lineRest? (t : Text) : Option Text :=
  let rest := t.dropWhile (· != '\n')
  if rest.isEmpty || rest == ['\n'] then some (t.takeWhile (· != '\n')) else none

/-- The marker letter of a line and what follows the marker. -/
def marker? (line : Text) : Option (Char × Text) := do
  let inside ← dropBrackets? '(' (← dropIndent? line)
  match inside with
  | [] => none
  | letter :: rest =>
    if isLetter letter then
      let rest ← dropBrackets? ')' (rest.dropWhile fun c => lower c == lower letter)
      let content ← lineRest? (rest.dropWhile fun c => c == ' ' || c == '\t')
      return (letter, content)
    else none

/-- Read a line of a lesson. -/
def read (line : Text) : Except MarkerError Line :=
  match marker? line with
  | none => .ok (.plain line)
  | some (letter, content) =>
    match Part.ofLetter? (lowerText [letter]) with
    | some part => .ok (.marker part content)
    | none => .error (.unknown (lowerText [letter]))

end Line

end LessonText
