import LessonText.Lesson.ProblemSource
import LessonText.Lesson.TextItem

/-! # Problems

A rendered problem. How it is to be answered follows from what it contains.
-/

namespace LessonText

/-- How a problem is to be answered. -/
inductive QuestionType where
  | simple
  | multi
  | fill
  | order
  | slide
  deriving DecidableEq

namespace QuestionType

def name : QuestionType → Text
  | simple => "simple"
  | multi => "multi"
  | fill => "fill"
  | order => "order"
  | slide => "slide"

end QuestionType

structure Problem where
  intro : TextItem := {}
  question : TextItem := {}
  explanation : TextItem := {}
  right : List TextItem := []
  wrong : List TextItem := []

namespace Problem

open Pattern Unicode

/-- The mark of a gap with nothing after it but closing tags. -/
def gapAtEnd : Pattern :=
  let spaces := span (· == ' ')
  let space := span isSpace
  "<span" ++ span1 (· == ' ') ++ "class" ++ spaces ++ "=" ++ spaces ++ "\"missing-word" ++
    span (· != '"') ++ "\"" ++ span (· != '>') ++ "></span>" ++
    many true (space ++ "</" ++ span1 isWord ++ ">" ++ space) ++ space ++ textEnd

/-- The only gap of the question is bare and ends it: the answers are to be put in order. -/
def isOrder (p : Problem) : Bool :=
  match p.question.missingWords with
  | [word] => word.isEmpty && gapAtEnd.occursIn p.question.html
  | _ => false

/-- The question has gaps, and every gap has its word. -/
def isFill (p : Problem) : Bool :=
  !p.question.missingWords.isEmpty && p.question.missingWords.all fun word => !word.isEmpty

def questionType (p : Problem) : QuestionType :=
  if p.question.html.isEmpty then .slide
  else if p.isOrder then .order
  else if p.isFill then .fill
  else match p.right with
    | [] => .slide
    | [_] => .simple
    | _ => .multi

/-- Render each of a list of sources. -/
def renderAll (metadata : Metadata) : List Text → List TextItem × List Notice
  | [] => ([], [])
  | source :: rest =>
    let (item, notices) := TextItem.render metadata source
    let (items, later) := renderAll metadata rest
    (item :: items, notices ++ later)

/-- Render the parts of a problem. -/
def render (metadata : Metadata) (source : ProblemSource) : Problem × List Notice :=
  let (intro, n₁) := TextItem.render metadata source.intro
  let (question, n₂) := TextItem.render metadata source.question
  let (explanation, n₃) := TextItem.render metadata source.explanation
  let (right, n₄) := renderAll metadata source.right
  let (wrong, n₅) := renderAll metadata source.wrong
  (⟨intro, question, explanation, right, wrong⟩, n₁ ++ n₂ ++ n₃ ++ n₄ ++ n₅)

end Problem

end LessonText
