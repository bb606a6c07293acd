import LessonText.Lesson.Item
import LessonText.Markup.Render
import LessonText.Text.Tag

/-! # Text items

One part of a problem as it is shown: its markup, and the words that belong into its gaps.
-/

namespace LessonText

structure TextItem where
  html : Text := []
  missingWords : List Text := []

namespace TextItem

open Unicode

/-- Render the source of an item with the rules for items. -/
def run (metadata : Metadata) (source : Text) : Text × Session :=
  Markup.run .document [] (Item.rules metadata) source

/-- Render the source of an item, and report what happens on the way. -/
def render (metadata : Metadata) (source : Text) : TextItem × List Notice :=
  let (html, session) := run metadata source
  (⟨html, session.gaps⟩, session.notices)

/-- A word in the text that is not part of a longer word; `before` is the last character. -/
def holdsWord (word : Text) : Char → Text → Bool
  | _, [] => false
  | before, c :: rest =>
    (!isWord before && word.isPrefixOf (c :: rest) &&
        !((c :: rest).drop word.length).head?.any isWord) ||
      holdsWord word c rest

/-- A tag that marks a gap. -/
def findGap : Finder Text := fun before t => do
  let (inside, length) ← Tag.find before t
  if holdsWord "missing-word" '<' inside then some (inside, length) else none

/-- The text without markup; a gap is shown as dots. -/
def plainText (item : TextItem) : Text :=
  (Tag.plainText (Piece.assemble (fun _ => "...") (item.html.cut findGap))).trim

/-- What follows the white space and the tags at the start, `skip` characters being passed. -/
def dropLeading : Nat → Text → Text
  | _, [] => []
  | skip + 1, _ :: rest => dropLeading skip rest
  | 0, c :: rest =>
    if isSpace c then dropLeading 0 rest
    else match Tag.find none (c :: rest) with
      | some (_, length) => dropLeading (length - 1) rest
      | none => c :: rest

/-- The first word after white space and tags. -/
def firstWord (item : TextItem) : Text :=
  (dropLeading 0 item.html).takeWhile fun c => !isSpace c && c != '<'

end TextItem

end LessonText
