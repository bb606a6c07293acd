import LessonText.Lesson.Emoji
import LessonText.Lesson.Metadata
import LessonText.Markup.Rule

/-! # Items

Lesson text may hold items: gaps such as `...word`, emojis and values of the metadata. An item is a
mark, perhaps a word directly after it, and perhaps a class after a closing bracket. Items are found
in rendered text.
-/

namespace LessonText.Item

open Pattern Unicode

/-- Where an item may begin: at the start of a line, after a space, after a tag, or after a ward. -/
def start : Pattern := lineStart ||| one (anyOf " >") ||| "???"

/-- An entity, or any character that is neither white space nor part of a tag. -/
def wordPart : Pattern :=
  "&" ++ optional "#" ++ span1 (fun c => letterFold c || c.isDigit) ++ ";" |||
    one fun c => !isSpace c && c != '<' && c != '>'

/-- As few word parts as possible. -/
def word : Pattern := wordPart ++ many false wordPart

/-- Where an item may end: before white space or a stop, at the end of a line, or before a closing
    tag. -/
def stop : Pattern :=
  ahead true (one (fun c => isSpace c || anyOf ",;:.?!" c) ||| lineEnd |||
    "</" ++ few1 inLine ++ ">")

/-- An item with a mark. Group 1 is what stands before it, group 2 the word, group 3 the class. -/
def pattern (mark : Pattern) : Pattern :=
  group 1 start ++ mark ++ optional (group 2 word) ++
    optional (">" ++ group 3 (span letterFold)) ++ stop

/-- The class that places the answers for a gap. -/
def alignments : List (Text × Text) :=
  [("row", "align-row"), ("line", "align-row"), ("col", "align-column"),
    ("column", "align-column"), ("left", "align-left"), ("right", "align-right"),
    ("center", "align-centre"), ("centre", "align-centre")]

def emojiClasses : List Text := ["big", "bigger", "biggest", "small", "smaller", "smallest"]

/-- A requested class in lower case, if it is one of those that an emoji may have. -/
def safeClass (requested : Text) : Text :=
  let cls := lowerText requested
  if emojiClasses.contains cls then cls else []

/-- A class, and another one if it is not empty. -/
def classes (cls more : Text) : Text := if more.isEmpty then cls else cls ++ " " ++ more

/-- A gap; the word that belongs into it is recorded, and hidden in the markup. -/
def gap : Rule where
  pattern := pattern "..."
  replace m := do
    Rendering.recordGap (m.group 2)
    let alignment := (alignments.lookup (lowerText (m.group 3))).getD []
    return m.group 1 ++ "<span class=\"" ++ classes "missing-word" alignment ++
      "\" data-missing-word=\"" ++ Attribute.encode (m.group 2) ++ "\"></span>"

def emoji : Rule where
  pattern := pattern (literalFold "emoji:")
  replace m := do
    let content ← Emoji.render (m.group 2)
    return m.group 1 ++ "<span class=\"" ++ classes "emoji" (safeClass (m.group 3)) ++ "\">" ++
      content ++ "</span>"

/-- A value of the metadata, or the key with a hidden message. -/
def value (metadata : Metadata) : Rule where
  pattern := pattern (literalFold "meta:")
  replace m :=
    let key := m.group 2
    let found := if key.isEmpty then [] else (metadata.get? key).getD []
    if found.isEmpty then
      pure (m.group 1 ++ "<span " ++ Attribute.hiddenError ("Cannot find metadata " ++ key) ++ ">" ++
        key ++ "</span>")
    else pure (m.group 1 ++ found)

/-- An escaped bracket, which ends no word. -/
def escapedBracket : Rule := Rule.ofRewrite ⟨"\\>", fun _ => "&gt;"⟩

/-- The rules for items in order. -/
def rules (metadata : Metadata) : List Rule := [escapedBracket, gap, emoji, value metadata]

end LessonText.Item
