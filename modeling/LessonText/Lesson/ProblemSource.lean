import LessonText.Lesson.Marker

/-! # Problem sources

The source text of each part of one problem, before it is rendered.
-/

namespace LessonText

structure ProblemSource where
  intro : Text := []
  question : Text := []
  explanation : Text := []
  right : List Text := []
  wrong : List Text := []
  deriving DecidableEq

namespace ProblemSource

/-- No answer, and white space only elsewhere. -/
def isEmpty (p : ProblemSource) : Bool :=
  Text.isBlank p.intro && Text.isBlank p.question && Text.isBlank p.explanation &&
    p.right.isEmpty && p.wrong.isEmpty

/-- Set a part, or add an answer. -/
def add (p : ProblemSource) (part : Part) (content : Text) : ProblemSource :=
  match part with
  | .intro => { p with intro := content }
  | .question => { p with question := content }
  | .right => { p with right := p.right ++ [content] }
  | .wrong => { p with wrong := p.wrong ++ [content] }
  | .explanation => { p with explanation := content }
  | .divider => p

end ProblemSource

end LessonText
