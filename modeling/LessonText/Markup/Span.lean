import LessonText.Markup.Maths
import LessonText.Markup.Rule
import LessonText.Text.Entity

/-! # Span rules

Equations in a line, images, links, addresses, code and emphasis. What they build is taken into
custody at once; of an emphasis only the tags are, so that its contents are read on.
-/

namespace LessonText.Span

open Pattern Unicode

/-- A rule whose result is taken into custody, with the keys in it put back first, so that no ward
    hides a key. -/
def guarded (pattern : Pattern) (build : Match → Rendering Text) : Rule :=
  ⟨pattern, fun m => do Rendering.protect (← Rendering.reinstate (← build m))⟩

/-- An equation between two marks. -/
def equation : Rule :=
  let mark := one (· == '\x7b') ++ "math" ++ optional "s" ++ one (· == '\x7d')
  guarded (mark ++ group 1 (few1 inLine) ++ mark) fun m =>
    pure (Maths.element (m.group 1) .inline)

/-- A character of an address on the web. -/
def isAddressChar (c : Char) : Bool := isWord c || "-@:%.+~#=/?&;".toList.contains c

/-- The scheme of an address on the web. -/
def scheme : Pattern := "http" ++ optional "s" ++ "://"

/-- A text in square brackets, an address in round ones, and perhaps a title: groups 1, 2 and 3. -/
def reference : Pattern :=
  "[" ++ group 1 (span (· != ']')) ++ "](" ++ group 2 (scheme ++ span1 isAddressChar) ++
    optional (span1 (· == ' ') ++ "\"" ++ group 3 (span (· != '"')) ++ "\"") ++ ")"

/-- Author text inside a quoted attribute. -/
def quotable (t : Text) : Rendering Text := do
  let t ← Rendering.reinstate t
  return t.flatMap fun c => if c = '"' then "&quot;" else [c]

def image : Rule :=
  guarded ("!" ++ reference) fun m => do
    let alt ← quotable (m.group 1)
    let title ← quotable (m.group 3)
    return "<img alt=\"" ++ alt ++ "\" src=\"" ++ m.group 2 ++ "\" title=\"" ++ title ++ "\"/>"

/-- A link, and its address for the printed page. -/
def link : Rule where
  pattern := reference
  replace m := do
    let title ← quotable (m.group 3)
    let anchor ← Rendering.protect (← Rendering.reinstate
      ("<a target=\"_blank\" href=\"" ++ m.group 2 ++ "\" title=\"" ++ title ++ "\">" ++
        m.group 1 ++ "</a>"))
    let address ← Rendering.protect (m.group 2)
    return anchor ++ "<span class=\"print-only\"> (" ++ address ++ ")</span>"

/-- An opening angle bracket, as it is or escaped. -/
def openBracket : Pattern := "&lt;" ||| "<"

/-- An address in angle brackets. -/
def autoLink : Rule :=
  guarded (openBracket ++ group 1 (scheme ++ span1 isAddressChar) ++ ">") fun m =>
    pure ("<a target=\"_blank\" href=\"" ++ m.group 1 ++ "\">" ++ m.group 1 ++ "</a>")

def isMailboxChar (c : Char) : Bool := isWord c || c == '.' || c == '+' || c == '-'

def isHostChar (c : Char) : Bool := isWord c || c == '-'

/-- A mail address. -/
def mailAddress : Pattern :=
  span1 isMailboxChar ++ "@" ++ span1 isHostChar ++ many1 ("." ++ span1 isHostChar)

/-- A mail address in angle brackets, written as entities. -/
def mailLink : Rule :=
  guarded (openBracket ++ group 1 mailAddress ++ ">") fun m =>
    let address := m.group 1
    pure ("<a href=\"" ++ Entity.encode ("mailto:" ++ address) ++ "\">" ++ Entity.encode address ++
      "</a>")

/-- Code between backticks: two or more on each side, or one. -/
def code : Rule :=
  let tick := one (· == '\x60')
  guarded (tick ++ some1 (· == '\x60') ++ group 1 (fewest inLine) ++ tick ++ span1 (· == '\x60') |||
      tick ++ group 2 (fewest inLine) ++ tick)
    fun m => pure ("<code>" ++ (m.group? 1).getD (m.group 2) ++ "</code>")

/-- Contents between tags, the last tag innermost. The tags are taken into custody. -/
def emphasise (tags : List Text) (contents : Text) : Rendering Text := do
  let opening ← Rendering.protect (tags.flatMap fun tag => "<" ++ tag ++ ">")
  let closing ← Rendering.protect (tags.reverse.flatMap fun tag => "</" ++ tag ++ ">")
  return opening ++ contents ++ closing

/-- Emphasis between two equal marks: around one character, and around a text that has no white
    space at its ends. -/
def emphasis (sign : Char) (count : Nat) (tags : List Text) : List Rule :=
  let mark := literal (List.replicate count sign)
  [⟨mark ++ group 1 (one fun c => !isSpace c && c != sign) ++ mark,
      fun m => emphasise tags (m.group 1)⟩,
    ⟨mark ++ group 1 (one notSpace ++ fewest inLine ++ one notSpace) ++ mark,
      fun m => emphasise tags (m.group 1)⟩]

/-- The span rules in order. Emphasis with more signs comes first, so that its tags nest. -/
def rules : List Rule :=
  [equation, image, link, autoLink, mailLink, code] ++
    emphasis '*' 3 ["strong", "em"] ++ emphasis '_' 3 ["strong", "em"] ++
    emphasis '*' 2 ["strong"] ++ emphasis '_' 2 ["strong"] ++
    emphasis '*' 1 ["em"] ++ emphasis '_' 1 ["em"]

end LessonText.Span
