import LessonText.Markup.Span

/-! # Lines of elements

The grammar of a line: plain text, and elements of the markup in it, each followed by a space or by the end of the
line. Every element is written in one way and stands for one piece of a page.
-/

namespace LessonText.Span

open Pattern

/-! ## The texts of an element -/

/-- A character of plain text. -/
def isPlain (c : Char) : Bool := c.isAlphanum || c == ' ' || c == ','

/-- A plain text with a letter or a digit at both ends. -/
structure Word where
  text : Text
  plain : text.all isPlain = true
  begins : text.head?.any Char.isAlphanum = true
  ends : text.getLast?.any Char.isAlphanum = true

/-- A character of an address that begins no entity and no key. -/
def isWebChar (c : Char) : Bool := isAddressChar c && c != '&' && c != '?'

/-- What follows the scheme of an address on the web. -/
structure WebAddress where
  secure : Bool
  path : Text
  full : path ≠ []
  allowed : path.all isWebChar = true

def WebAddress.text (a : WebAddress) : Text := "http" ++ ((if a.secure then ("s" : Text) else []) ++ ("://" ++ a.path))

/-- A mail address: the mailbox, the host and the domains behind it. -/
structure MailAddress where
  mailbox : Text
  host : Text
  domains : List Text
  mailboxFull : mailbox ≠ []
  hostFull : host ≠ []
  domainsFull : domains ≠ [] ∧ ∀ d ∈ domains, d ≠ []
  inMailbox : mailbox.all isMailboxChar = true
  inHost : host.all isHostChar = true
  inDomains : ∀ d ∈ domains, d.all isHostChar = true

def MailAddress.text (a : MailAddress) : Text :=
  a.mailbox ++ ("@" ++ (a.host ++ a.domains.flatMap fun d => '.' :: d))

/-- A character of code on one line that no earlier rule reads and that no key begins with. -/
def isCodeChar : Char → Bool := noneOf "\n\r\x00\x60[\x7b<&\\?"

structure CodeText where
  text : Text
  full : text ≠ []
  allowed : text.all isCodeChar = true

/-- A text with an address, and perhaps a title. -/
structure Reference where
  contents : Word
  address : WebAddress
  title : Option Word

namespace Reference

def titleText (r : Reference) : Text := r.title.elim [] Word.text

/-- A title in quotes, behind a space. -/
def titled (r : Reference) : Text :=
  match r.title with
  | some t => " " ++ ("\"" ++ (t.text ++ "\""))
  | none => []

def source (r : Reference) : Text :=
  "[" ++ (r.contents.text ++ ("](" ++ (r.address.text ++ (r.titled ++ ")"))))

end Reference

/-- The sign of which the marks of an emphasis consist. -/
inductive Sign where
  | asterisk
  | underscore
  deriving DecidableEq

def Sign.char : Sign → Char
  | asterisk => '*'
  | underscore => '_'

inductive Strength where
  | em
  | strong
  | both
  deriving DecidableEq

namespace Strength

/-- How many signs make a mark. -/
def count : Strength → Nat
  | em => 1
  | strong => 2
  | both => 3

/-- The tags, the last one innermost. -/
def tags : Strength → List Text
  | em => ["em"]
  | strong => ["strong"]
  | both => ["strong", "em"]

def opening (s : Strength) : Text := s.tags.flatMap fun tag => "<" ++ tag ++ ">"

def closing (s : Strength) : Text := s.tags.reverse.flatMap fun tag => "</" ++ tag ++ ">"

end Strength

/-- The mark at both ends of an emphasis. -/
def mark (sign : Sign) (strength : Strength) : Text := List.replicate strength.count sign.char

/-! ## Elements -/

inductive Element where
  | image (reference : Reference)
  | link (reference : Reference)
  | web (address : WebAddress)
  | mail (address : MailAddress)
  | code (contents : CodeText)
  | emphasis (sign : Sign) (strength : Strength) (contents : Word)

namespace Element

/-- An element as an author writes it. -/
def source : Element → Text
  | image r => "!" ++ r.source
  | link r => r.source
  | web a => "<" ++ (a.text ++ ">")
  | mail a => "<" ++ (a.text ++ ">")
  | code c => "\x60" ++ (c.text ++ "\x60")
  | emphasis sign strength w => mark sign strength ++ (w.text ++ mark sign strength)

/-- An element behind the escaping. -/
def shown : Element → Text
  | web a => "&lt;" ++ (a.text ++ ">")
  | mail a => "&lt;" ++ (a.text ++ ">")
  | e => e.source

/-- An element on a page. -/
def html : Element → Text
  | image r => "<img alt=\"" ++ r.contents.text ++ "\" src=\"" ++ r.address.text ++ "\" title=\"" ++ r.titleText ++
      "\"/>"
  | link r => "<a target=\"_blank\" href=\"" ++ r.address.text ++ "\" title=\"" ++ r.titleText ++ "\">" ++
      r.contents.text ++ "</a><span class=\"print-only\"> (" ++ r.address.text ++ ")</span>"
  | web a => "<a target=\"_blank\" href=\"" ++ a.text ++ "\">" ++ a.text ++ "</a>"
  | mail a => "<a href=\"" ++ Entity.encode ("mailto:" ++ a.text) ++ "\">" ++ Entity.encode a.text ++ "</a>"
  | code c => "<code>" ++ c.text ++ "</code>"
  | emphasis _ strength w => strength.opening ++ w.text ++ strength.closing

end Element

/-- A line with at least one element: the text before the elements, and the elements with the text behind each. -/
structure Line where
  first : Text
  parts : List (Element × Text)
  full : parts ≠ []
  plain : ∀ t ∈ first :: parts.map Prod.snd, t.all isPlain = true
  spaced : ∀ t ∈ parts.map Prod.snd, t.head?.all (· == ' ') = true
  apart : ∀ t ∈ (parts.map Prod.snd).dropLast, t ≠ []

namespace Line

/-- A line with its elements written in some way. -/
def write (l : Line) (f : Element → Text) : Text := l.first ++ l.parts.flatMap fun p => f p.1 ++ p.2

def source (l : Line) : Text := l.write Element.source

def html (l : Line) : Text := l.write Element.html

end Line

end LessonText.Span
