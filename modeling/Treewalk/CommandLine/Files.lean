import Treewalk.Text.Quoted
import Treewalk.Text.Utf8

/-!
# Files as the command line sees them

**A file can be opened or not, read or not, and then holds a text or not.**  The world around
the command line is what each path leads to and what stands on standard input.  A flat
directory is the smallest such world.
-/

namespace Treewalk.CommandLine

open Text

/-! ### Paths and what they lead to -/

/-- Why the system refuses a path. -/
inductive PathError where
  | notFound
  | notDirectory
  | isDirectory
  | nameTooLong
deriving DecidableEq, Repr

/-- What the system says. -/
def PathError.message : PathError → String
  | .notFound => "No such file or directory (os error 2)"
  | .notDirectory => "Not a directory (os error 20)"
  | .isDirectory => "Is a directory (os error 21)"
  | .nameTooLong => "File name too long (os error 36)"

/-- What a path leads to when it is opened for reading. -/
inductive Target where
  | file (bytes : ByteArray)
  | directory
  | refused (error : PathError)

/-- What surrounds a run of the command line. -/
structure World where
  target : (path : String) → Target
  /-- Why a path cannot be created as a file, if it cannot. -/
  creationError? : (path : String) → Option PathError
  stdin : ByteArray

/-! ### Reading a source -/

/-- Reads a file as a text, or says why that cannot be done. -/
def World.read (world : World) (path : String) : Except String String :=
  match world.target path with
  | .refused error =>
    .error ("Failed to open file " ++ Quoted.name path ++ ": " ++ error.message)
  | .directory =>
    .error ("Failed to read file " ++ Quoted.name path ++ ": " ++ PathError.isDirectory.message)
  | .file bytes =>
    match Utf8.decode bytes with
    | .ok text => .ok text
    | .error defect =>
      .error ("File " ++ Quoted.name path ++ " is not valid UTF-8: " ++ defect.message)

/-! ### A flat directory

A path is walked step by step.  It starts in the directory, or outside if it is absolute.  Only
plain files are in the directory, so a walk is there, at one of the files, or outside, where
nothing is known but that there are directories. -/

/-- A directory that holds plain files only. -/
abbrev Directory := List (String × ByteArray)

/-- Where a walk along a path has come to. -/
inductive Position where
  | here
  | outside
  | file (bytes : ByteArray)

/-- The number of bytes that a single step may have. -/
def longestName : Nat := 255

/-- The number of bytes that a path may have. -/
def longestPath : Nat := 4095

/-- The steps of a path. -/
def steps (path : String) : List String :=
  (path.splitOn "/").filter (· ≠ "")

namespace Directory

/-- Where a walk along a path starts. -/
def origin (path : String) : Position :=
  if path.startsWith "/" then .outside else .here

/-- One step of a walk. -/
def step (d : Directory) (position : Position) (name : String) : Except PathError Position :=
  match position with
  | .file _ => .error .notDirectory
  | position =>
    if name = "." then .ok position
    else if name = ".." then .ok .outside
    else if longestName < name.utf8ByteSize then .error .nameTooLong
    else
      match position with
      | .here => ((d.lookup name).map Position.file).elim (.error .notFound) .ok
      | _ => .error .notFound

/-- A walk along steps. -/
def walk (d : Directory) (position : Position) : List String → Except PathError Position
  | [] => .ok position
  | name :: names =>
    match d.step position name with
    | .ok position => d.walk position names
    | .error error => .error error

/-- The error of a path that leads nowhere, however its steps are. -/
def textError? (path : String) : Option PathError :=
  if path.isEmpty then some .notFound
  else if longestPath < path.utf8ByteSize then some .nameTooLong
  else none

/-- What a path leads to.  A slash at its end asks for a directory. -/
def target (d : Directory) (path : String) : Target :=
  match textError? path with
  | some error => .refused error
  | none =>
    match d.walk (origin path) (steps path) with
    | .error error => .refused error
    | .ok (.file bytes) => if path.endsWith "/" then .refused .notDirectory else .file bytes
    | .ok _ => .directory

/-- Why a path cannot be created as a file, if it cannot.  Its last step is not walked, as there
    need not be anything of that name. -/
def creationError? (d : Directory) (path : String) : Option PathError :=
  match textError? path with
  | some error => some error
  | none =>
    match d.walk (origin path) (steps path).dropLast with
    | .error error => some error
    | .ok (.file _) => some .notDirectory
    | .ok _ =>
      match (steps path).getLast? with
      | none | some "." | some ".." => some .isDirectory
      | some name =>
        if path.endsWith "/" then some .isDirectory
        else if longestName < name.utf8ByteSize then some .nameTooLong
        else none

/-- The world of a directory, with standard input. -/
def world (d : Directory) (stdin : ByteArray) : World :=
  { target := d.target, creationError? := d.creationError?, stdin }

end Directory

end Treewalk.CommandLine
