import LessonText.Lesson.Problem
import LessonText.Lesson.Source

/-! # Lessons

A lesson is compiled from its text: it is split, its header read, and every problem that is not
empty rendered with the metadata.
-/

namespace LessonText

structure Lesson where
  metadata : Metadata := {}
  problems : List Problem := []

/-- What a lesson may be given as. -/
inductive Document where
  | text (t : Text)
  /-- Something else, by the name of its kind. -/
  | other (kind : Text)

inductive CompileError where
  | notText (kind : Text)
  | marker (cause : MarkerError)

namespace CompileError

def message : CompileError → Text
  | notText kind => "Lesson source must be text, not " ++ kind
  | marker cause => cause.message

end CompileError

namespace Document

/-- Split the text of a document. -/
def source : Document → Except CompileError LessonSource
  | text t => (LessonSource.ofText t).mapError .marker
  | other kind => .error (.notText kind)

end Document

namespace Lesson

/-- Render each of a list of problem sources. -/
def renderAll (metadata : Metadata) : List ProblemSource → List Problem × List Notice
  | [] => ([], [])
  | source :: rest =>
    let (problem, notices) := Problem.render metadata source
    let (problems, later) := renderAll metadata rest
    (problem :: problems, notices ++ later)

/-- Render a split lesson, and report what happens on the way. -/
def ofSource (source : LessonSource) : Lesson × List Notice :=
  let metadata := Metadata.ofHeader source.header
  let (problems, notices) := renderAll metadata (source.problems.filter fun p => !p.isEmpty)
  (⟨metadata, problems⟩, notices ++ [.compiled problems.length metadata.size])

/-- Compile a document. -/
def compile (document : Document) : Except CompileError (Lesson × List Notice) := do
  return ofSource (← document.source)

end Lesson

end LessonText
