import LessonText.Lesson.ProblemSource

/-! # Lesson sources

The text of a lesson is a header and blocks. A block is a marker line with the lines up to the next
marker line. Blocks are gathered into problems: a new problem begins after a break, and where an
intro or a question would replace one that the problem already has.
-/

namespace LessonText

/-- A marker line and the lines that follow it. -/
structure Block where
  part : Part
  content : Text

/-- The header and the problems of a lesson, before they are rendered. -/
structure LessonSource where
  header : Text
  problems : List ProblemSource

namespace LessonSource

/-- A line with its end. -/
def endLine (line : Text) : Text := line ++ ['\n']

/-- The line of a marker, with its end; nothing if the line has nothing else. -/
def firstLine (content : Text) : Text := if content.isEmpty then [] else endLine content

/-- The lines before the first marker line, and the blocks. -/
def blocks : List Line → Text × List Block
  | [] => ([], [])
  | .plain content :: rest =>
    let (text, later) := blocks rest
    (endLine content ++ text, later)
  | .marker part content :: rest =>
    let (text, later) := blocks rest
    ([], ⟨part, firstLine content ++ text⟩ :: later)

/-- Whether a part begins a new problem after the given last part. -/
def beginsProblem (last : Option Part) (part : Part) (current : ProblemSource) : Bool :=
  if last = some .divider then true
  else match part with
    | .intro => !current.intro.isEmpty
    | .question => !current.question.isEmpty
    | _ => false

/-- The problems that blocks add to the current one. A last block without content adds nothing. -/
def gather : Option Part → ProblemSource → List Block → List ProblemSource
  | _, current, [] => [current]
  | last, current, b :: rest =>
    let add (p : ProblemSource) : ProblemSource :=
      if rest.isEmpty && b.content.isEmpty then p else p.add b.part b.content
    if beginsProblem last b.part current then current :: gather (some b.part) (add {}) rest
    else gather (some b.part) (add current) rest

def ofLines (lines : List Line) : LessonSource :=
  let (header, blocks) := blocks lines
  ⟨header, gather none {} blocks⟩

/-- Split the text of a lesson. -/
def ofText (t : Text) : Except MarkerError LessonSource := do
  return ofLines (← (Text.newlineLines t).mapM Line.read)

end LessonSource

end LessonText
