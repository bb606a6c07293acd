import LessonText.Markup.Greek

/-! # Equations

An equation in plain text becomes a line of entities and mathematical letters, with tags for
fractions, powers, indices and roots. The rewrites run in three groups: entities, then letters and
digits, then tags.
-/

namespace LessonText.Maths

open Pattern Unicode

/-- The mathematical form of an ASCII letter or digit. The italic h is a character of its own. -/
def symbol (c : Char) : Char :=
  if c.isUpper then Char.ofNat (0x1D434 + (c.toNat - 0x41))
  else if c == 'h' then 'ℎ'
  else if c.isLower then Char.ofNat (0x1D44E + (c.toNat - 0x61))
  else if c.isDigit then Char.ofNat (0x1D7F6 + (c.toNat - 0x30))
  else c

/-- An operator with any white space around it. -/
def spaced (p : Pattern) : Pattern := span isSpace ++ p ++ span isSpace

/-- A function name in whatever case, where no letter touches it and no ampersand comes before it.
    The character before it is group 1. -/
def functionName (name : Text) : Pattern :=
  group 1 (textStart ||| one fun c => !letterFold c && c != '&') ++ literalFold name ++
    notFollowedBy letterFold

/-- Operators and functions as entities. No tags yet. -/
def entityRewrites : List Rewrite :=
  [⟨spaced "-", fun _ => " &minus; "⟩,
    ⟨spaced "*", fun _ => " &times; "⟩,
    ⟨span1 isSpace ++ "ne" ++ followedBy (· == ' '), fun _ => " &ne; "⟩,
    ⟨spaced ("!=" ||| "/="), fun _ => " &ne; "⟩,
    ⟨spaced (("<" ||| "&lt;") ++ "="), fun _ => " &le; "⟩,
    ⟨spaced ((">" ||| "&gt;") ++ "="), fun _ => " &ge; "⟩,
    ⟨functionName "sqrt", fun m => m.group 1 ++ "&radic;"⟩,
    ⟨functionName "sum", fun m => m.group 1 ++ "&sum;"⟩,
    ⟨functionName "int", fun m => m.group 1 ++ "&int;"⟩,
    ⟨(textStart ||| span isSpace) ++ "d:", fun _ => " &part;"⟩,
    ⟨group 1 (one Char.isAlphanum) ++ "." ++ followedBy Char.isAlpha,
      fun m => m.group 1 ++ "&sdot;"⟩]

/-- Digits and letters in their mathematical form. The name of an entity stays as it is. -/
def symbolRewrites : List Rewrite :=
  [⟨span1 Char.isDigit, fun m => m.text.map symbol⟩,
    ⟨notPrecededBy (fun c => c.isAlpha || c == '&') ++ span1 Char.isAlpha ++
        notAhead (span Char.isAlpha ++ ";"),
      fun m => m.text.map symbol⟩]

/-- A bracketed expression, or else a run of characters of a class. -/
def operand (cls : Char → Bool) : Pattern := "(" ++ fewest inLine ++ ")" ||| span1 cls

/-- An operand of a fraction. -/
def fractionPart : Pattern := operand fun c => !isSpace c && c != '/'

/-- An operand raised or lowered by a sign; it is group 1. -/
def shifted (sign : Pattern) : Pattern :=
  spaced sign ++ group 1 (operand fun c => !isSpace c && c != ')' && c != '<')

/-- Fractions, powers, indices and roots as tags, and spaces that keep a line together. -/
def tagRewrites : List Rewrite :=
  [⟨group 1 fractionPart ++ spaced "/" ++ group 2 fractionPart, fun m =>
      "<table><tr><td>" ++ m.group 1 ++ "</td></tr><tr><td>" ++ m.group 2 ++
        "</td></tr></table>"⟩,
    ⟨shifted "^", fun m => "<sup>" ++ m.group 1 ++ "</sup>"⟩,
    ⟨shifted "_", fun m => "<sub>" ++ m.group 1 ++ "</sub>"⟩,
    ⟨span1 (· == ' '), fun _ => "&nbsp;"⟩,
    ⟨"&int;", fun m => "<span class=\"high-symbol\">" ++ m.text ++ "</span>"⟩,
    ⟨"&radic;[" ++ group 1 (span (· != ']')) ++ "]", fun m =>
      "<span class=\"radic\">&radic;</span><span class=\"sqrt\">" ++ m.group 1 ++ "</span>"⟩]

/-- An equation as markup, without an element around it. -/
def toHtml (equation : Text) : Text :=
  let named := Greek.replaceNames equation.trim
  Rewrite.applyAll tagRewrites (Rewrite.applyAll symbolRewrites
    (Rewrite.applyAll entityRewrites named))

/-- The element around an equation: part of a line, or a block. -/
inductive Display where
  | inline
  | block

namespace Display

def tag : Display → Text
  | inline => "span"
  | block => "div"

end Display

/-- An equation as an element. -/
def element (equation : Text) (display : Display) : Text :=
  " <" ++ display.tag ++ " class=\"maths\">" ++ toHtml equation ++ "</" ++ display.tag ++ "> "

end LessonText.Maths
