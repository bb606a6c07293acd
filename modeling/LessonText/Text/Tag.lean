import LessonText.Text.Piece

/-! # Tags

A tag reaches from an opening angle bracket to the next closing one. What is left without the tags
is the plain text of a page.
-/

namespace LessonText.Tag

open Unicode

/-- A tag at the start of a text, as the text between its brackets. -/
def find : Finder Text
  | _, '<' :: rest =>
    let inside := rest.takeWhile (· != '>')
    if (rest.dropWhile (· != '>')).isEmpty then none else some (inside, inside.length + 2)
  | _, _ => none

/-- A text without its tags. -/
def strip (t : Text) : Text := Piece.assemble (fun _ => []) (t.cut find)

/-- Every run of white space as one space; `inRun` says that a run is being passed. -/
def collapseFrom : Bool → Text → Text
  | _, [] => []
  | inRun, c :: rest =>
    if isSpace c then if inRun then collapseFrom true rest else ' ' :: collapseFrom true rest
    else c :: collapseFrom false rest

/-- Every run of white space as one space. -/
def collapse (t : Text) : Text := collapseFrom false t

/-- The text of a page without tags, with single spaces. -/
def plainText (t : Text) : Text := collapse (strip t)

end LessonText.Tag
