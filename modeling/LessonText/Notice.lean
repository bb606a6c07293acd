import LessonText.Text.Basic

/-! # Notices

What is reported while lessons are rendered and compiled, each with its severity.
-/

namespace LessonText

/-- Severities in ascending order. -/
inductive Severity where
  | debug
  | info
  | warning
  | error
  deriving DecidableEq

namespace Severity

def rank : Severity → Nat
  | debug => 0
  | info => 1
  | warning => 2
  | error => 3

def name : Severity → Text
  | debug => "DEBUG"
  | info => "INFO"
  | warning => "WARNING"
  | error => "ERROR"

end Severity

inductive Notice where
  /-- A key was to be reinstated that is not pending. -/
  | missingWard (key : Text)
  /-- An emoji was asked for without a name. -/
  | blankEmoji
  /-- A lesson was compiled. -/
  | compiled (problems entries : Nat)
  /-- A lesson file was compiled. -/
  | compiledFile (name : Text) (problems : Nat)

namespace Notice

def severity : Notice → Severity
  | missingWard _ => .error
  | blankEmoji => .debug
  | compiled _ _ => .debug
  | compiledFile _ _ => .info

def message : Notice → Text
  | missingWard key => "Could not find " ++ key ++ " in protected data."
  | blankEmoji => "blank emoji"
  | compiled problems entries =>
    "Compiled " ++ Text.decimal problems ++ " problems with " ++ Text.decimal entries ++
      " metadata entries"
  | compiledFile name problems =>
    "Compiled " ++ name ++ ": " ++ Text.decimal problems ++ " problems"

end Notice

end LessonText
