import LessonText.Markup.Rule

/-! # Runs of lines

A run is a sequence of neighbouring lines that all begin in the same way: a quotation, a list or a
piece of code. The beginnings are removed, each line and the run as a whole are wrapped, and the run
is set apart by empty lines.
-/

namespace LessonText

/-- How the lines of a run begin, and what becomes of the run. -/
structure LineRun where
  /-- The beginning of each line; it passes at least one character. -/
  start : Pattern
  opening : Text := []
  closing : Text := []
  lineOpening : Text := []
  lineClosing : Text := []
  /-- Drop line ends at the start of the contents and white space at their end. -/
  trims : Bool := false
  /-- A last step on the contents. -/
  finish : Option (Text → Rendering Text) := none

namespace LineRun

open Pattern

/-- From a first line of the run to the last, with the newline before and the newline after. -/
def block (run : LineRun) : Pattern :=
  (textStart ||| "\n") ++ run.start ++ fewest anything ++ ("\n" ++ notAhead run.start ||| textEnd)

/-- A line of the run; its contents are group 1. -/
def line (run : LineRun) : Pattern := lineStart ++ run.start ++ group 1 (span inLine) ++ lineEnd

/-- The lines without their beginnings, each wrapped. -/
def contents (run : LineRun) (t : Text) : Text :=
  Rewrite.apply ⟨run.line, fun m => run.lineOpening ++ m.group 1 ++ run.lineClosing⟩ t

/-- Contents without line ends before and white space after them. -/
def trimmed (t : Text) : Text := Text.trimEnd (t.dropWhile fun c => c == '\r' || c == '\n')

def render (run : LineRun) (t : Text) : Rendering Text := do
  let lines := run.contents t
  let body := if run.trims then trimmed lines else lines
  let body ← match run.finish with
    | some step => step body
    | none => pure body
  return "\n\n" ++ run.opening ++ body ++ run.closing ++ "\n\n"

/-- The rule that rewrites every run of a text. -/
def rule (run : LineRun) : Rule := ⟨run.block, fun m => run.render m.text⟩

/-! ## Beginnings of lines -/

/-- A quotation: an angle bracket and any gap. -/
def quoteStart : Pattern := ">" ++ span isGap

/-- Code: four spaces or a tab. -/
def codeStart : Pattern := "    " ||| "\t"

/-- At most three spaces. -/
def indent : Pattern := optional (" " ++ optional (" " ++ optional " "))

/-- A bullet and a gap. -/
def bulletStart : Pattern := indent ++ one (anyOf "*+-") ++ span1 isGap

/-- A number, a full stop and a gap. -/
def numberStart : Pattern := indent ++ span1 Unicode.isDigit ++ "." ++ span1 isGap

end LineRun

end LessonText
