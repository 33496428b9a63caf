import Treewalk.CommandLine

/-!
# The program

**The program asks the system for the files that its arguments name, and hands on what the
command line answers.**
-/

namespace Treewalk.CommandLine

/-- The error of a path that the system refused. -/
def PathError.ofIO : IO.Error → PathError
  | .inappropriateType _ code _ => if code = 21 then .isDirectory else .notDirectory
  | .invalidArgument _ code _ => if code = 36 then .nameTooLong else .notFound
  | _ => .notFound

/-- Opens a file for reading. -/
def openFile (path : String) : IO Target := do
  try
    return .file (← IO.FS.readBinFile path)
  catch e =>
    match PathError.ofIO e with
    | .isDirectory => return .directory
    | error => return .refused error

/-- Creates an empty file, or says why that cannot be done. -/
def createFile (path : String) : IO (Option PathError) := do
  try
    IO.FS.writeBinFile path .empty
    return none
  catch e =>
    return some (.ofIO e)

/-- The path of the file that a command reads. -/
def Command.path? : Command → Option String
  | .tokenize path | .parse path _ | .evaluate path | .run path => some path
  | .repl => none

/-- Looks at what an invocation needs of the system. -/
def Invocation.observe (invocation : Invocation) : IO World := do
  let creationError ←
    match invocation.logPath with
    | some path => createFile path
    | none => pure none
  let target ←
    match invocation.command.path? with
    | some path => openFile path
    | none => pure .directory
  let stdin ←
    match invocation.command with
    | .repl => (← IO.getStdin).readBinToEnd
    | _ => pure .empty
  return { target := fun _ => target, creationError? := fun _ => creationError, stdin }

end Treewalk.CommandLine

open Treewalk.CommandLine in
/-- Runs the command that the arguments ask for. -/
def main (args : List String) : IO UInt32 := do
  let result ←
    match Invocation.ofArguments? args with
    | some invocation => pure (invocation.perform (← invocation.observe))
    | none => pure (perform (Directory.world [] .empty) args)
  IO.print result.stdout
  IO.eprint result.stderr
  return .ofNat result.exitCode
