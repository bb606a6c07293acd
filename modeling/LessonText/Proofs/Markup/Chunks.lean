import LessonText.Markup.Block
import LessonText.Proofs.Markup.Elements

/-! # Documents of blocks

The grammar of a document: blocks with an empty line between every two. Every block is written line by line and
stands for one piece of a page.
-/

namespace LessonText.Block

open Pattern

/-- A line of plain text that begins with a letter and ends with a letter or a digit. -/
def isPlainLine (t : Text) : Bool := t.all Span.isPlain && t.head?.any Char.isAlpha && t.getLast?.any Char.isAlphanum

/-- A line of code of which no earlier pass reads anything, and which does not end in white space. -/
def isCodeLine (t : Text) : Bool := t.all (noneOf "\n\r\x00<&\\") && t.getLast?.any notSpace

structure PlainLine where
  text : Text
  plain : isPlainLine text = true

/-- The blocks of which every line begins in the same way. -/
inductive Listing where
  | quotation
  | code
  | bullets
  | numbered
  deriving DecidableEq

namespace Listing

/-- How a line begins. -/
def Begins : Listing → Text → Prop
  | quotation, t => t = "> "
  | code, t => t = "    "
  | bullets, t => t ∈ (["* ", "+ ", "- "] : List Text)
  | numbered, t => ∃ digits, digits ≠ [] ∧ digits.all Char.isDigit = true ∧ t = digits ++ ". "

/-- What may follow in the line. -/
def allows : Listing → Text → Bool
  | code => isCodeLine
  | quotation | bullets | numbered => isPlainLine

end Listing

/-- A line of a listing. -/
structure Row (kind : Listing) where
  start : Text
  contents : Text
  begins : kind.Begins start
  allowed : kind.allows contents = true

def Row.text {kind : Listing} (row : Row kind) : Text := row.start ++ row.contents

/-- A line behind hash signs; as many or as few as one likes may close it. -/
structure Heading where
  level : Nat
  line : PlainLine
  closing : Nat
  positive : level ≠ 0

/-- The hash signs behind the line, if there are any. -/
def Heading.closed (h : Heading) : Text := if h.closing = 0 then [] else ' ' :: List.replicate h.closing '#'

def Heading.text (h : Heading) : Text := List.replicate h.level '#' ++ (" " ++ (h.line.text ++ h.closed))

/-- A block of a document. -/
inductive Chunk where
  | heading (heading : Heading)
  | paragraph (lines : List PlainLine) (full : lines ≠ [])
  | listing (kind : Listing) (rows : List (Row kind)) (full : rows ≠ [])
  | ruler

/-- A text between tags. -/
def tagged (name contents : Text) : Text := "<" ++ name ++ ">" ++ contents ++ ("</" ++ name ++ ">")

namespace Chunk

/-- The lines of a block as an author writes them. -/
def lines : Chunk → List Text
  | heading h => [h.text]
  | paragraph lines _ => lines.map PlainLine.text
  | listing _ rows _ => rows.map Row.text
  | ruler => ["---"]

def source (c : Chunk) : Text := Text.join "\n" c.lines

/-- A block on a page, without the ends of its lines. -/
def html : Chunk → Text
  | heading h => tagged ("h" ++ Text.decimal (min h.level 6)) h.line.text
  | paragraph lines _ => tagged "p" (lines.flatMap PlainLine.text)
  | listing .quotation rows _ => tagged "blockquote" (rows.flatMap Row.contents)
  | listing .code rows _ => tagged "pre" (tagged "code" (rows.flatMap Row.contents))
  | listing .bullets rows _ => tagged "ul" (rows.flatMap fun row => tagged "li" row.contents)
  | listing .numbered rows _ => tagged "ol" (rows.flatMap fun row => tagged "li" row.contents)
  | ruler => "<hr>"

end Chunk

/-- A document: its blocks with an empty line between every two. -/
def written (chunks : List Chunk) : Text := Text.join "\n\n" (chunks.map Chunk.source)

end LessonText.Block
