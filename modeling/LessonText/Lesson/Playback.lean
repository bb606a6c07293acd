import LessonText.Lesson.Marks

/-! # Playback

A lesson is played by moving over its problems from the first to the last and marking them. The
place and the marks do not depend on each other.
-/

namespace LessonText

/-- Problems, the number of those already taken, and the marks given. -/
structure Playback (α : Type) where
  problems : List α
  position : Nat := 0
  marks : Marks α := {}

namespace Playback

variable {α : Type}

/-- Whether a problem is left to take. -/
def hasMore (p : Playback α) : Bool := p.position < p.problems.length

/-- The problem that would be taken next. -/
def peek (p : Playback α) : Option α := p.problems[p.position]?

/-- Take the next problem, if one is left. -/
def next (p : Playback α) : Option α × Playback α :=
  match p.peek with
  | some problem => (some problem, { p with position := p.position + 1 })
  | none => (none, p)

/-- Go back to the first problem. The marks are kept. -/
def restart (p : Playback α) : Playback α := { p with position := 0 }

def mark (p : Playback α) (problem : α) (mark : Mark) : Playback α :=
  { p with marks := p.marks.add problem mark }

/-- Drop the marks. The place is kept. -/
def clearMarks (p : Playback α) : Playback α := { p with marks := {} }

/-- What may be done with a lesson that is played. -/
inductive Step (α : Type) where
  | next
  | peek
  | restart
  | mark (problem : α) (mark : Mark)
  | clearMarks

/-- One step, and the problem that it gives. -/
def perform (p : Playback α) : Step α → Option α × Playback α
  | .next => p.next
  | .peek => (p.peek, p)
  | .restart => (none, p.restart)
  | .mark problem mark => (none, p.mark problem mark)
  | .clearMarks => (none, p.clearMarks)

end Playback

end LessonText
