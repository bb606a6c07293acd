import LessonText.Markup.LineRun
import LessonText.Markup.Maths

/-! # Block rules

Headings, quotations, code, lines across the page, lists and equations on lines of their own; then
paragraphs around what is left.
-/

namespace LessonText.Block

open Pattern Unicode

/-- A line underlined with a sign is a heading of the given tag. -/
def underlined (sign : Char) (tag : Text) : Rule :=
  Rule.ofRewrite
    ⟨group 1 (span1 inLine) ++ "\n" ++ span1 (· == sign) ++ "\n",
      fun m => "\n\n<" ++ tag ++ ">" ++ m.group 1 ++ "</" ++ tag ++ ">\n\n"⟩

/-- The tag of a heading of a level; levels below the sixth count as the sixth. -/
def headingTag (level : Nat) : Text := "h" ++ Text.decimal (min level 6)

/-- A line that begins with hash signs is a heading; as many may follow. -/
def heading : Rule :=
  Rule.ofRewrite
    ⟨lineStart ++ group 1 (some1 (· == '#')) ++ most (· == ' ') ++ group 2 (few1 inLine) ++
        span (· == '#') ++ span isGap ++ lineEnd,
      fun m =>
        let tag := headingTag (m.group 1).length
        "\n\n<" ++ tag ++ ">" ++ (m.group 2).trim ++ "</" ++ tag ++ ">\n"⟩

def quotation : LineRun where
  start := LineRun.quoteStart
  opening := "<blockquote>"
  closing := "</blockquote>"

/-- Code is taken into custody, so that no rule reads it. -/
def code : LineRun where
  start := LineRun.codeStart
  opening := "<pre><code>"
  closing := "</code></pre>"
  trims := true
  finish := some Rendering.protect

/-- Three or more signs on a line. -/
def ruler : Rule :=
  let sign := one (anyOf "*_-") ++ span (· == ' ')
  Rule.ofRewrite
    ⟨lineStart ++ sign ++ sign ++ sign ++ many true sign ++ most isSpace ++ lineEnd,
      fun _ => "\n\n<hr>\n\n"⟩

def bullets : LineRun where
  start := LineRun.bulletStart
  opening := "<ul>"
  closing := "</ul>"
  lineOpening := "<li>"
  lineClosing := "</li>"

def numbered : LineRun where
  start := LineRun.numberStart
  opening := "<ol>"
  closing := "</ol>"
  lineOpening := "<li>"
  lineClosing := "</li>"

/-- An equation on a line of its own. -/
def equation : Rule where
  pattern :=
    lineStart ++ span isGap ++ "math" ++ optional "s" ++ ":" ++ most isGap ++
      group 1 (few1 inLine) ++ span isGap ++ lineEnd
  replace m := do
    let key ← Rendering.protect (Maths.toHtml (m.group 1))
    return "\n\n<div class=\"maths\">" ++ key ++ "</div>\n\n"

/-- The block rules in order. A line across the page comes before bullets, which its signs may be. -/
def rules : List Rule :=
  [underlined '=' "h1", underlined '-' "h2", heading, quotation.rule, code.rule, ruler,
    bullets.rule, numbered.rule, equation]

/-- Lines one after another, none of them empty, as a paragraph, unless they begin with a tag. -/
def paragraph : Rule :=
  Rule.ofRewrite
    ⟨(textStart ||| "\n" ++ span1 (· == '\n')) ++
        notAhead ("<" ++ span1 isWord ++ one fun c => isSpace c || c == '>') ++
        group 1 (many1 (span1 inLine ++ optional ("\n" ++ notFollowedBy (· == '\n')))),
      fun m => "\n\n<p>" ++ m.group 1 ++ "</p>\n\n"⟩

/-- Several empty lines become one. -/
def emptyLines : Rule := Rule.ofRewrite ⟨"\n" ++ span1 (· == '\n'), fun _ => "\n\n"⟩

def paragraphRules : List Rule := [paragraph, emptyLines]

end LessonText.Block
