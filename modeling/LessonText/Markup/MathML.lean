import LessonText.Pattern.Class
import LessonText.Pattern.Rewrite

/-! # MathML blocks

An author may write an equation as a MathML block. Links, styles and event handlers are removed from
its tags, and every bracket that begins no MathML tag is escaped.
-/

namespace LessonText.MathML

open Pattern Unicode

/-- A quoted value. -/
def quoted (quote : Char) : Pattern :=
  one (· == quote) ++ span (· != quote) ++ one (· == quote)

/-- A tag; a quoted value in it may contain a closing bracket. -/
def tag : Pattern :=
  "<" ++ many true (one (noneOf ">\"'") ||| quoted '"' ||| quoted '\'') ++ ">"

/-- The name of an attribute that could do harm. -/
def unsafeName : Pattern :=
  (most fun c => isWord c || c == ':' || c == '-') ++ literalFold "href" ||| literalFold "style" |||
    literalFold "on" ++ span1 isWord

/-- An attribute that could do harm, with the white space or slashes before it. -/
def unsafeAttribute : Pattern :=
  span1 (fun c => isSpace c || c == '/') ++ unsafeName ++ span isSpace ++ "=" ++ span isSpace ++
    (quoted '"' ||| quoted '\'' ||| span1 fun c => !isSpace c && c != '>')

/-- A bracket that begins no MathML tag. -/
def foreignBracket : Pattern :=
  "<" ++ notAhead ("semantics" ||| "annotation" ||| one (anyOf "m/"))

/-- A tag without the attributes that could do harm. -/
def sanitiseTag (t : Text) : Text := Rewrite.apply ⟨unsafeAttribute, fun _ => []⟩ t

/-- A block without anything that could do harm. -/
def sanitise (t : Text) : Text :=
  Rewrite.apply ⟨foreignBracket, fun _ => "&lt;"⟩
    (Rewrite.apply ⟨tag, fun m => sanitiseTag m.text⟩ t)

/-- A block, from its opening tag to the first closing tag. -/
def block : Pattern :=
  "<math" ++ span (· != '>') ++ ">" ++ fewest anything ++ "</math>"

/-- The sanitised blocks of a text, in order. -/
def blocks (t : Text) : List Text :=
  (block.pieces t).filterMap fun
    | .plain _ => none
    | .found m => some (sanitise m.text)

/-- A text in which a step takes each sanitised block and gives what replaces it. -/
def replaceBlocks {m : Type → Type} [Monad m] (step : Text → m Text) (t : Text) : m Text :=
  Piece.assembleM (fun found => step (sanitise found.text)) (block.pieces t)

end LessonText.MathML
