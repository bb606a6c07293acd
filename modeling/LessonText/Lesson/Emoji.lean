import LessonText.Markup.Rendering
import LessonText.Unicode.Case

/-! # Emojis

An emoji is asked for by name or by code points, in whatever case, and is written as entities.
-/

namespace LessonText.Emoji

/-- What a name stands for: entities, or another name. -/
inductive Entry where
  | entities (t : Text)
  | alias (name : Text)

/-- The known names, in upper case. -/
def table : List (Text × Entry) :=
  [("GRINNING", .entities "&#x1F600;"),
    (")", .alias "GRINNING"),
    ("-)", .alias "GRINNING"),
    ("SMILEY", .alias "GRINNING"),
    ("SMILING", .alias "GRINNING"),
    ("HAPPY", .alias "GRINNING"),
    ("WORRIED", .entities "&#x1F61F;"),
    ("SAD", .alias "WORRIED"),
    ("LAUGHING", .entities "&#x1F602;"),
    ("LAUGH", .alias "LAUGHING"),
    ("CRYING", .entities "&#x1F622;"),
    ("TEAR", .alias "CRYING"),
    ("FROWNING", .entities "&#x1F641;"),
    ("(", .alias "FROWNING"),
    ("-(", .alias "FROWNING"),
    ("NEUTRAL", .entities "&#x1F610;"),
    ("ANGRY", .entities "&#x1F620;"),
    ("GRUMPY", .alias "ANGRY"),
    ("WINK", .entities "&#x1F609;"),
    ("WINKY", .alias "WINK"),
    ("WINKING", .alias "WINK"),
    ("THUMBS-UP", .entities "&#x1F44D;"),
    ("THUMBS-DOWN", .entities "&#x1F44E;"),
    ("TICK", .entities "&#x2714;&#xFE0F;"),
    ("CROSS", .entities "&#x274C;"),
    ("WARNING", .entities "&#x26A0;&#xFE0F;"),
    ("ALERT", .alias "WARNING"),
    ("ERROR", .alias "WARNING"),
    ("WHITE-QUESTION-MARK", .entities "&#x2754;")]

/-- The entities of a name, following one alias at most. -/
def named? (name : Text) : Option Text :=
  match table.lookup name with
  | some (.entities t) => some t
  | some (.alias other) =>
    match table.lookup other with
    | some (.entities t) => some t
    | _ => none
  | none => none

/-- An upper-case hexadecimal digit. -/
def isHexDigit (c : Char) : Bool := c.isDigit || ('A' ≤ c && c ≤ 'F')

/-- The entities of code points `U+XXXX`, of one to six digits each, one after another. The digits
    of the code point in progress are `digits`, the last first. -/
def codePoints? (digits : Text) : Text → Option Text
  | [] => if digits.isEmpty then none else some (digits.reverse ++ ";")
  | 'U' :: '+' :: rest =>
    if digits.isEmpty then none
    else (codePoints? [] rest).map fun t => digits.reverse ++ ";&#x" ++ t
  | c :: rest =>
    if isHexDigit c && digits.length < 6 then codePoints? (c :: digits) rest else none

/-- The entities that a definition in upper case asks for. -/
def lookup? (definition : Text) : Option Text :=
  match definition with
  | 'U' :: '+' :: rest => (codePoints? [] rest).map fun t => "&#x" ++ t
  | _ => named? definition

/-- A question mark that carries a hidden message. -/
def unknown (definition : Text) : Text :=
  "<span " ++ Attribute.hiddenError ("Cannot find emoji " ++ definition) ++ ">&#x2754;</span>"

/-- The markup for an emoji; a space if nothing is asked for. -/
def render (definition : Text) : Rendering Text := do
  if definition.isEmpty then
    Rendering.report .blankEmoji
    return " "
  return (lookup? (Unicode.upperText definition)).getD (unknown definition)

end LessonText.Emoji
