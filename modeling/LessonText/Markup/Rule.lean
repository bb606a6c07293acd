import LessonText.Markup.Rendering
import LessonText.Pattern.Class
import LessonText.Pattern.Rewrite

/-! # Rules

A rule finds the matches of a pattern and lets a rendering step write what takes their place. Rules
are applied one after another, each over the whole of the text, so their order matters.
-/

namespace LessonText

structure Rule where
  pattern : Pattern
  replace : Match → Rendering Text

namespace Rule

/-- A rule without effects. -/
def ofRewrite (r : Rewrite) : Rule := ⟨r.pattern, fun m => pure (r.replace m)⟩

def apply (r : Rule) (t : Text) : Rendering Text := Piece.assembleM r.replace (r.pattern.pieces t)

/-- Each rule over the whole of the text, one after another. An empty text stays as it is. -/
def applyAll (rules : List Rule) (t : Text) : Rendering Text :=
  if t.isEmpty then pure t else rules.foldlM (fun t r => r.apply t) t

/-- Every occurrence of a text becomes another text. -/
def replacing (find replacement : Text) : Rule := ⟨.literal find, fun _ => pure replacement⟩

/-- Every occurrence of a text, in whatever case, becomes another text. -/
def replacingFold (find replacement : Text) : Rule :=
  ⟨.literalFold find, fun _ => pure replacement⟩

end Rule

end LessonText
