import LessonText.Pattern.Basic
import LessonText.Text.Piece

/-! # Rewriting

Every match of a pattern is found from the left, without overlap, and something else is put in its
place.
-/

namespace LessonText

namespace Pattern

/-- The matches of a pattern in a text, and what lies between them. -/
def pieces (p : Pattern) (t : Text) : List (Piece Match) :=
  t.cutFrom (p.matchAt t.length 0) (p.matchAt t.length 1) 0 none

/-- A pattern that matches somewhere. -/
def occursIn (p : Pattern) (t : Text) : Bool :=
  (p.pieces t).any fun
    | .plain _ => false
    | .found _ => true

end Pattern

/-- A pattern, and the text that takes the place of a match. -/
structure Rewrite where
  pattern : Pattern
  replace : Match → Text

namespace Rewrite

def apply (r : Rewrite) (t : Text) : Text := Piece.assemble r.replace (r.pattern.pieces t)

/-- Each rewrite over the whole of the text, one after another. -/
def applyAll (rewrites : List Rewrite) (t : Text) : Text := rewrites.foldl (fun t r => r.apply t) t

end Rewrite

end LessonText
