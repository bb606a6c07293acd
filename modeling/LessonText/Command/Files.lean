import LessonText.Command.Path
import LessonText.Text.Quoted
import LessonText.Text.Utf8

/-! # Files

The files that a command can reach from a working directory. Directories are the working directory
and those above it, the root, those that lead to a file, and any others that are listed.
-/

namespace LessonText

/-- Files by the steps that lead to them from the working directory, and directories without files. -/
structure Files where
  entries : List (List Text × Bytes) := []
  directories : List (List Text) := []

/-- Why a file cannot be written. -/
inductive FileError where
  | missing (path : Path)
  | notDirectory (path : Path)
  | isDirectory (path : Path)

namespace FileError

def message : FileError → Text
  | missing path => "[Errno 2] No such file or directory: " ++ Quoted.quote path.toText
  | notDirectory path => "[Errno 20] Not a directory: " ++ Quoted.quote path.toText
  | isDirectory path => "[Errno 21] Is a directory: " ++ Quoted.quote path.toText

end FileError

namespace Files

/-- The bytes of the file that the steps lead to. -/
def get? (files : Files) (steps : List Text) : Option Bytes := files.entries.lookup steps

/-- The working directory, or one above it. -/
def isOuter (steps : List Text) : Bool := steps.all (· == Path.above)

/-- A directory that no other holds. -/
def isRoot (steps : List Text) : Bool := steps == [['/']] || steps == [['/', '/']]

def isDirectory (files : Files) (steps : List Text) : Bool :=
  isOuter steps || isRoot steps || files.directories.contains steps ||
    files.entries.any fun entry => steps.isPrefixOf entry.1 && steps != entry.1

/-- What a walk along steps comes to. -/
inductive Place where
  | file (steps : List Text)
  | directory (steps : List Text)
  /-- A name that is not in use, in a directory that exists. -/
  | vacant (steps : List Text)
  /-- A step through something that does not exist. -/
  | lost
  /-- A step through a file. -/
  | blocked

/-- The directory above one, if it is not the one above all that is known. Nothing is above a root. -/
def parent? (here : List Text) : Option (List Text) :=
  if isOuter here then none else if isRoot here then some here else some here.dropLast

/-- Walk on from a directory. -/
def walk (files : Files) (here : List Text) : List Text → Place
  | [] => .directory here
  | step :: rest =>
    match if step == Path.above then parent? here else none with
    | some up => files.walk up rest
    | none =>
      let next := here ++ [step]
      if files.isDirectory next then files.walk next rest
      else if (files.get? next).isSome then if rest.isEmpty then .file next else .blocked
      else if rest.isEmpty then .vacant next
      else .lost

/-- Where a path leads to. -/
def locate (files : Files) (path : Path) : Place := files.walk [] path.trail

/-- The bytes of the file that a path leads to. -/
def read? (files : Files) (path : Path) : Option Bytes :=
  match files.locate path with
  | .file steps => files.get? steps
  | _ => none

/-- Put bytes into the file that a path leads to. -/
def write (files : Files) (path : Path) (bytes : Bytes) : Except FileError Files :=
  match files.locate path with
  | .file steps =>
    .ok { files with entries := (steps, bytes) :: files.entries.filter (·.1 != steps) }
  | .vacant steps => .ok { files with entries := (steps, bytes) :: files.entries }
  | .directory _ => .error (.isDirectory path)
  | .lost => .error (.missing path)
  | .blocked => .error (.notDirectory path)

/-- Make a file with the directories that lead to it, unless it is there. -/
def create (files : Files) (path : Path) : Files :=
  match files.locate path with
  | .vacant steps => { files with entries := (steps, []) :: files.entries }
  | .lost => { files with entries := (path.trail, []) :: files.entries }
  | _ => files

end Files

end LessonText
