import LessonText.Text.Basic

/-! # Paths

A path names a file by the directories that lead to it. Empty steps and steps to the same directory
count for nothing, so that paths that are written differently may be equal.
-/

namespace LessonText

/-- What a path starts with, which is nothing for a relative one, and its steps. -/
structure Path where
  root : Text
  steps : List Text
  deriving DecidableEq

namespace Path

/-- The texts between slashes. -/
def segments : Text → List Text
  | [] => [[]]
  | c :: rest => if c = '/' then [] :: segments rest else Text.consLine c (segments rest)

/-- The slashes at the start: exactly two are kept, any other number counts as one. -/
def rootOf (t : Text) : Text :=
  match (t.takeWhile (· == '/')).length with
  | 0 => []
  | 2 => ['/', '/']
  | _ => ['/']

def ofText (t : Text) : Path :=
  ⟨rootOf t, (segments t).filter fun step => !step.isEmpty && step != ['.']⟩

/-- The path in its shortest form. -/
def toText (p : Path) : Text :=
  if p.root.isEmpty && p.steps.isEmpty then ['.'] else p.root ++ Text.join ['/'] p.steps

/-- The steps to walk along, the root being the first of them. -/
def trail (p : Path) : List Text := if p.root.isEmpty then p.steps else p.root :: p.steps

/-- A step to the directory above. -/
def above : Text := ".."

/-- A path on which no step is taken back. -/
def straighten (p : Path) : Path :=
  ⟨p.root, p.steps.foldl
    (fun steps step =>
      if step = above && steps.getLast?.any (· != above) then steps.dropLast
      else if step = above && !p.root.isEmpty then steps
      else steps ++ [step]) []⟩

/-- The last step, if there is one. -/
def name (p : Path) : Text := p.steps.getLast?.getD []

end Path

end LessonText
