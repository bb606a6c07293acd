import LessonText.Command.SettingsFile
import LessonText.Notice
import LessonText.Text.Numeral

/-! # Settings

Settings come from environment variables and from a settings file, which the environment overrides.
The names of variables begin with `T2L_`, in whatever case; of names that differ in case alone the
last one counts.
-/

namespace LessonText

structure Settings where
  logLevel : Severity := .warning
  logFile : Option Text := none
  logRotation : Text := "10 MB"
  sourceEncoding : Text := "utf-8-sig"
  jsonIndent : Nat := 2

/-- What is wrong with a variable. -/
inductive SettingFault where
  /-- The log level is none of the known ones. -/
  | logLevel
  /-- The indent is no whole number. -/
  | indentNumber
  /-- The indent is below zero. -/
  | indentNegative

namespace SettingFault

def message : SettingFault → Text
  | logLevel => "log_level: literal_error"
  | indentNumber => "json_indent: int_parsing"
  | indentNegative => "json_indent: greater_than_equal"

end SettingFault

namespace Settings

def logLevel? (value : Text) : Option Severity :=
  [Severity.debug, .info, .warning, .error].find? (·.name == value)

def indent (value : Text) : Except SettingFault Nat :=
  match Numeral.integer? value with
  | none => .error .indentNumber
  | some n => if n < 0 then .error .indentNegative else .ok n.toNat

/-- The fault of an outcome, if it has one. -/
def faultOf {α : Type} : Except SettingFault α → List SettingFault
  | .ok _ => []
  | .error fault => [fault]

/-- The value of a variable, if the first binding of its name gives one. -/
def value? (given : Bindings) (name : Text) : Option Text := (given.lookup name).join

def logLevelOf (given : Bindings) : Except SettingFault Severity :=
  match value? given "t2l_log_level" with
  | none => .ok .warning
  | some value =>
    match logLevel? value with
    | some level => .ok level
    | none => .error .logLevel

def jsonIndentOf (given : Bindings) : Except SettingFault Nat :=
  match value? given "t2l_json_indent" with
  | none => .ok 2
  | some value => indent value

/-- Settings from variables, or every fault in the order of the settings. -/
def ofVariables (given : Bindings) : Except (List SettingFault) Settings :=
  match logLevelOf given, jsonIndentOf given with
  | .ok logLevel, .ok jsonIndent =>
    .ok
      { logLevel
        logFile := value? given "t2l_log_file"
        logRotation := (value? given "t2l_log_rotation").getD "10 MB"
        sourceEncoding := (value? given "t2l_source_encoding").getD "utf-8-sig"
        jsonIndent }
  | level, indent => .error (faultOf level ++ faultOf indent)

/-- Bindings with their names in lower case, the last one first. -/
def normalise (bindings : Bindings) : Bindings :=
  (bindings.map fun (name, value) => (Unicode.lowerText name, value)).reverse

/-- Settings from an environment and the text of a settings file. -/
def read (environment : Entries Text) (file : Option Text) : Except (List SettingFault) Settings :=
  let outer := environment.map fun (name, value) => (name, some value)
  let inner := (file.map (SettingsFile.variablesOf environment)).getD []
  ofVariables (normalise outer ++ normalise inner)

/-- The file that receives every notice, if one is named. -/
def logTarget (s : Settings) : Option Text := s.logFile.filter fun name => !name.isEmpty

end Settings

end LessonText
