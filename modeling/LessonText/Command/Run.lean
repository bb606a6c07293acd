import LessonText.Command.Arguments
import LessonText.Command.Console
import LessonText.Command.Encoding
import LessonText.Command.Files
import LessonText.Command.Settings
import LessonText.Lesson.Export

/-! # Running a command

A run reads the settings, makes the log file, performs the command on the files and reports what it
shows, prints and writes, or why it comes to no result. The command line may ask for more notices;
nothing else depends on that.
-/

namespace LessonText

/-- Why a run comes to no result. -/
inductive CommandError where
  /-- The command line cannot be read. -/
  | usage
  | settings (faults : List SettingFault)
  | unknownEncoding (name : Text)
  /-- The file is not valid in its encoding. -/
  | undecodable
  | compile (cause : CompileError)
  | file (cause : FileError)

namespace CommandError

def message : CommandError → Text
  | usage => []
  | settings faults => Text.join "; " (faults.map SettingFault.message)
  | unknownEncoding name => "unknown encoding: " ++ name
  | undecodable => []
  | compile cause => cause.message
  | file cause => cause.message

end CommandError

/-- What a command does: its exit code, what it prints and shows, the files after it, and the
    notices on the way. -/
structure Report where
  exit : Nat := 0
  printed : Text := []
  shown : List Console := []
  files : Files
  notices : List Notice := []

/-- A run that comes to no result: why, the files as they are left, and the notices on the way. -/
structure Failure where
  cause : CommandError
  files : Files
  notices : List Notice := []

namespace Command

/-- The report on a lesson file that does not exist. -/
def missingReport (files : Files) (path : Path) : Report :=
  { exit := 1
    shown := [.line ("[red]Error: Lesson file not found: " ++ Console.escape path.toText ++ "[/red]")]
    files }

/-- The text of a lesson file, with unified line ends. -/
def decodeSource (settings : Settings) (bytes : Bytes) : Except CommandError Text :=
  match Encoding.ofName? settings.sourceEncoding with
  | none => .error (.unknownEncoding settings.sourceEncoding)
  | some encoding =>
    match encoding.decode? bytes with
    | none => .error .undecodable
    | some t => .ok (Text.unifyNewlines t)

/-- Compile the bytes of a lesson file. -/
def compileBytes (settings : Settings) (bytes : Bytes) :
    Except CommandError (Lesson × List Notice) := do
  let source ← decodeSource settings bytes
  (Lesson.compile (.text source)).mapError .compile

/-- A line of the table of problems. -/
def problemRow (number : Nat) (p : Problem) : List Text :=
  let question := p.question.plainText
  let shown := if question.isEmpty then p.intro.plainText else question
  [Text.decimal number, p.questionType.name, Console.escape (shown.take 60),
    Text.decimal p.right.length, Text.decimal p.wrong.length]

/-- The table of the problems of a lesson. -/
def problemTable (name : Text) (lesson : Lesson) : Console :=
  .table (name ++ ": " ++ Text.decimal lesson.problems.length ++ " problems")
    ["#", "Type", "Question", "Right", "Wrong"]
    (lesson.problems.zipIdx.map fun (p, index) => problemRow (index + 1) p)

/-- The table of the metadata of a lesson. -/
def metadataTable (metadata : Metadata) : Console :=
  .table "Metadata" ["Key", "Value"]
    (metadata.entries.map fun (key, value) => [key, Console.escape value])

/-- Perform a command. -/
def perform (settings : Settings) (files : Files) : Command → Except Failure Report
  | .compile name json output => do
    let path := Path.ofText name
    match files.read? path with
    | none => return missingReport files path
    | some bytes =>
      let (lesson, notices) ← (compileBytes settings bytes).mapError fun cause => ⟨cause, files, []⟩
      let notices := notices ++ [.compiledFile path.name lesson.problems.length]
      let exported := lesson.export.render (some settings.jsonIndent)
      match output, json with
      | some target, _ =>
        let target := Path.ofText target
        let files ← (files.write target (Utf8.encode exported)).mapError fun cause =>
          ⟨.file cause, files, notices⟩
        let line := "[green]Wrote " ++ Text.decimal lesson.problems.length ++ " problems to " ++
          Console.escape target.toText ++ "[/green]"
        return { shown := [.line line], files, notices }
      | none, true => return { printed := Console.printed exported, files, notices }
      | none, false => return { shown := [problemTable path.name lesson], files, notices }
  | .render text spans =>
    let (html, session) := Markup.run (if spans then .spans else .document) [] [] text
    return { printed := Console.printed html, files, notices := session.notices }
  | .metadata name => do
    let path := Path.ofText name
    match files.read? path with
    | none => return missingReport files path
    | some bytes =>
      let (lesson, notices) ← (compileBytes settings bytes).mapError fun cause => ⟨cause, files, []⟩
      let shown :=
        if lesson.metadata.entries.isEmpty then .line "[yellow]No metadata found.[/yellow]"
        else metadataTable lesson.metadata
      return { shown := [shown], files, notices }

end Command

/-- The report of a run, the notices that are written to standard error, and the file that receives
    all of them. -/
structure Outcome where
  report : Report
  reported : List Notice
  logTarget : Option Text

/-- A run whether or not it comes to a result, with what `Outcome` tells besides. -/
structure Attempt where
  report : Except Failure Report
  reported : List Notice := []
  logTarget : Option Text := none

namespace Attempt

/-- Every notice of the run. -/
def notices (a : Attempt) : List Notice :=
  match a.report with
  | .ok report => report.notices
  | .error failure => failure.notices

/-- The outcome, if there is one. -/
def outcome (a : Attempt) : Except CommandError Outcome :=
  match a.report with
  | .ok report => .ok ⟨report, a.reported, a.logTarget⟩
  | .error failure => .error failure.cause

/-- Write the notices at or above a severity to standard error, and all of them to a log file. -/
def log (level : Severity) (target : Option Text) (report : Except Failure Report) : Attempt :=
  let silent : Attempt := { report, logTarget := target }
  { silent with reported := silent.notices.filter fun notice => level.rank ≤ notice.severity.rank }

end Attempt

namespace CommandLine

/-- The text of the settings file in the working directory. -/
def settingsText (files : Files) : Except CommandError (Option Text) :=
  match files.read? (Path.ofText ".env") with
  | none => .ok none
  | some bytes =>
    match Encoding.utf8Marked.decode? bytes with
    | none => .error .undecodable
    | some t => .ok (some (Text.unifyNewlines t))

/-- The settings that the environment and the settings file give. -/
def readSettings (environment : Entries Text) (files : Files) : Except CommandError Settings := do
  let file ← settingsText files
  (Settings.read environment file).mapError .settings

/-- The files once the log file is there. -/
def openLog (settings : Settings) (files : Files) : Files :=
  match settings.logTarget with
  | some target => files.create (Path.ofText target).straighten
  | none => files

/-- The settings that say where notices go. The command does not see them. -/
def logSettings (line : CommandLine) (settings : Settings) : Settings :=
  if line.verbose then { settings with logLevel := .debug } else settings

/-- Run the command of a line with the settings. -/
def execute (line : CommandLine) (settings : Settings) (files : Files) : Attempt :=
  let logging := line.logSettings settings
  let files := openLog logging files
  Attempt.log logging.logLevel logging.logTarget <|
    match Command.read? line.name line.words with
    | none => .error { cause := .usage, files }
    | some command => command.perform settings files

/-- Run the program on a command line. -/
def attempt (environment : Entries Text) (files : Files) (words : List Text) : Attempt :=
  match read? words with
  | none => { report := .error { cause := .usage, files } }
  | some line =>
    match readSettings environment files with
    | .error cause => { report := .error { cause, files } }
    | .ok settings => line.execute settings files

/-- The outcome of the program on a command line. -/
def run (environment : Entries Text) (files : Files) (words : List Text) :
    Except CommandError Outcome := (attempt environment files words).outcome

end CommandLine

end LessonText
