import LessonText.Command.Run

/-! # The program

Reads the files and variables that a command line needs, runs it, and writes what it reports.
-/

namespace LessonText.Program

/-- A text as a string. -/
def string (t : Text) : String := String.ofList t

/-- The value of a variable of the environment. -/
def readVariable (name : String) : IO (Option (Text × Text)) := do
  return (← IO.getEnv name).map fun value => (name.toList, value.toList)

/-- The names of the variables that settings are read from. -/
def settingNames : List String :=
  ["T2L_LOG_LEVEL", "T2L_LOG_FILE", "T2L_LOG_ROTATION", "T2L_SOURCE_ENCODING", "T2L_JSON_INDENT"]

/-- The variables that settings are read from, and those that the settings file refers to. -/
def environment (files : Files) : IO (Entries Text) := do
  let file := ((CommandLine.settingsText files).toOption.join).getD []
  let names := settingNames ++ (SettingsFile.references file).map string
  return (← names.eraseDups.mapM readVariable).filterMap id

/-- A file, if it can be read. -/
def file? (path : Path) : IO (Option (List Text × Bytes)) := do
  try
    let bytes ← IO.FS.readBinFile (string path.toText)
    return some (path.trail, bytes.toList)
  catch _ => return none

/-- The directories that lead to a path, as far as they exist. -/
def directories (path : Path) : IO (List (List Text)) := do
  let base ← IO.currentDir
  let ways := (List.range path.trail.length).map path.trail.take
  ways.filterM fun steps => (base / string (Text.join "/" steps)).isDir

/-- The files that a command may read or write: the settings file and every file that is named. -/
def files (words : List Text) : IO Files := do
  let paths := Path.ofText ".env" :: words.map Path.ofText
  return ⟨(← paths.mapM file?).filterMap id, (← paths.mapM directories).flatten⟩

/-- The lines of a table, with the cells of a row apart. -/
def tableLines (title : Text) (columns : List Text) (rows : List (List Text)) : List Text :=
  title :: (columns :: rows).map (Text.join "  ")

def showOn (console : Console) : IO Unit :=
  match console with
  | .line markup => IO.println (string markup)
  | .table title columns rows =>
    (tableLines title columns rows).forM fun line => IO.println (string line)

/-- Write the file that a command has added or changed, which is never an empty one. -/
def store (before after : Files) : IO Unit :=
  after.entries.forM fun (steps, bytes) => do
    unless bytes.isEmpty || before.get? steps == some bytes do
      IO.FS.writeBinFile (string (Text.join "/" steps)) ⟨bytes.toArray⟩

/-- Append notices to the log file, which is made with the directories that lead to it. -/
def log (target : Text) (notices : List Notice) : IO Unit := do
  let path := (Path.ofText target).straighten
  IO.FS.createDirAll (string (Path.toText ⟨path.root, path.steps.dropLast⟩))
  let handle ← IO.FS.Handle.mk (string path.toText) .append
  notices.forM fun notice =>
    handle.putStrLn (string (notice.severity.name ++ " " ++ notice.message))

end LessonText.Program

open LessonText in
def main (args : List String) : IO UInt32 := do
  let words := args.map String.toList
  let files ← Program.files words
  let attempt := CommandLine.attempt (← Program.environment files) files words
  attempt.reported.forM fun notice => IO.eprintln (Program.string notice.message)
  attempt.logTarget.forM fun target => Program.log target attempt.notices
  match attempt.report with
  | .error { cause := .usage, .. } =>
    IO.eprintln "Usage: t2l [--verbose] COMMAND [ARGS]..."
    return 2
  | .error failure =>
    IO.eprintln (Program.string failure.cause.message)
    return 1
  | .ok report =>
    IO.print (Program.string report.printed)
    report.shown.forM Program.showOn
    Program.store files report.files
    return UInt32.ofNat report.exit
