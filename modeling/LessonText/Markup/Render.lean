import LessonText.Markup.Block
import LessonText.Markup.MathML
import LessonText.Markup.Span
import LessonText.Text.Escape

/-! # Rendering

Light markup becomes a page by a fixed sequence of passes: caller rules, MathML blocks, escaping,
block rules and paragraphs (for a whole document only), span rules, cleaning up, caller rules, and
at last the return of everything in custody. Each call has a warden of its own.
-/

namespace LessonText.Markup

open Pattern Unicode

/-- A tag that an author may write: a line break, or text raised or lowered. -/
def allowedTag : Pattern :=
  optional "/" ++ (literalFold "br" ||| literalFold "sub" ||| literalFold "sup") ++ ">"

/-- Escape every opening angle bracket that does not begin an allowed tag. -/
def escapeBrackets : Rewrite := ⟨"<" ++ notAhead allowedTag, fun _ => "&lt;"⟩

/-- A backslash takes its meaning from a sign: the sign becomes an entity. -/
def escapedSign : Rewrite :=
  ⟨"\\" ++ group 1 (one (anyOf "\\\x60*_\x7b\x7d[]()#+-.!")), fun m => Entity.encode (m.group 1)⟩

/-- Escaping, and the signs that an author has escaped. -/
def escape (t : Text) : Text := escapedSign.apply (escapeBrackets.apply (Escape.ampersands t))

/-- Remove white space from lines that have nothing else, with their ends as far as possible. -/
def blankLines : Rewrite := ⟨lineStart ++ some1 isSpace ++ lineEnd, fun _ => []⟩

def emptyElement : Rewrite :=
  let name := literalFold "p" ||| literalFold "div"
  ⟨"<" ++ name ++ ">" ++ span isSpace ++ "</" ++ name ++ ">", fun _ => []⟩

def cleanUp (t : Text) : Text := emptyElement.apply (blankLines.apply t)

/-- Whether block rules take part. -/
inductive Extent where
  | document
  | spans

/-- The rules that turn escaped text into a page. -/
def Extent.rules : Extent → List Rule
  | .document => Block.rules ++ Block.paragraphRules ++ Span.rules
  | .spans => Span.rules

/-- Every pass but the last, which returns what is in custody. -/
def passes (extent : Extent) (pre post : List Rule) (t : Text) : Rendering Text := do
  let t := Escape.dropNull (t.filter (· != '\r'))
  let t ← Rule.applyAll pre t
  let t ← MathML.replaceBlocks Rendering.protect t
  let t ← Rule.applyAll extent.rules (escape t)
  Rule.applyAll post (cleanUp t)

/-- Render light markup. -/
def render (extent : Extent) (pre post : List Rule) (t : Text) : Rendering Text := do
  if t.isEmpty then return t
  Rendering.reinstate (← passes extent pre post t)

/-- A rendering call with a session of its own. -/
def run (extent : Extent) (pre post : List Rule) (t : Text) : Text × Session :=
  render extent pre post t {}

/-- Render a document without caller rules. -/
def document (t : Text) : Text := (run .document [] [] t).1

/-- Render spans without caller rules. -/
def spans (t : Text) : Text := (run .spans [] [] t).1

/-- A rule that renders a text of its own for every occurrence of another. -/
def replacingNested (find source : Text) (fold : Bool) : Rule :=
  ⟨if fold then literalFold find else literal find,
    fun _ => Rendering.nested (render .spans [] [] source)⟩

end LessonText.Markup
