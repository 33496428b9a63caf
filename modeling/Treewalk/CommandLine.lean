import Treewalk.CommandLine.Files
import Treewalk.Session
import Treewalk.Syntax.Json
import Treewalk.Syntax.Printer

/-!
# The command line

**A command turns a source file, or the lines of a prompt, into output, messages and an exit
code.**  Files can be listed as tokens, shown as a tree, evaluated as one expression, or run as
a program.  The prompt runs each line in one session and goes on after errors.

A command with static errors shows them in source order and exits with 65, one that fails while
running with 70, and one whose file cannot be read with 74.
-/

namespace Treewalk.CommandLine

open Text

/-! ### Commands -/

/-- What is to be done. -/
inductive Command where
  | tokenize (path : String)
  | parse (path : String) (asData : Bool)
  | evaluate (path : String)
  | run (path : String)
  | repl
deriving DecidableEq, Repr

/-- A command, with the file that a log goes to if one is wanted. -/
structure Invocation where
  command : Command
  logPath : Option String
deriving DecidableEq, Repr

/-- The options and the remaining words of an argument list. -/
structure Arguments where
  log : Bool
  logFile : String
  asData : Bool
  words : List String

/-- Sorts arguments into options and words.  Options may stand anywhere in front of a double
    dash, behind which there are words only. -/
def Arguments.ofList? : List String → Option Arguments
  | [] => some { log := false, logFile := "app.log", asData := false, words := [] }
  | "--log" :: rest => (ofList? rest).map fun a => { a with log := true }
  | "--json" :: rest => (ofList? rest).map fun a => { a with asData := true }
  | "--" :: words => some { log := false, logFile := "app.log", asData := false, words }
  | ["--log-file"] => none
  | "--log-file" :: path :: rest => (ofList? rest).map fun a => { a with logFile := path }
  | word :: rest =>
    if word.startsWith "--log-file=" then
      (ofList? rest).map fun a => { a with logFile := (word.drop 11).toString }
    else if word.startsWith "-" ∧ word ≠ "-" then
      none
    else
      (ofList? rest).map fun a => { a with words := word :: a.words }

/-- The command that arguments ask for. -/
def Invocation.ofArguments? (args : List String) : Option Invocation := do
  let a ← Arguments.ofList? args
  let command ←
    match a.words, a.asData with
    | ["tokenize", path], false => some (Command.tokenize path)
    | ["parse", path], asData => some (.parse path asData)
    | ["evaluate", path], false => some (.evaluate path)
    | ["run", path], false => some (.run path)
    | ["repl"], false => some .repl
    | _, _ => none
  return { command, logPath := if a.log then some a.logFile else none }

/-! ### Results -/

/-- What a command leaves behind. -/
structure Result where
  exitCode : Nat
  stdout : String
  stderr : String
deriving DecidableEq, Repr

/-- The lines of a text, each ended by a line feed. -/
def lines (texts : List String) : String :=
  String.join (texts.map fun text => text ++ "\n")

/-- The result of a command that stops with reports. -/
def stopped (exitCode : Nat) (stdout : String) (reports : List Diagnostic) : Result :=
  { exitCode, stdout, stderr := Diagnostic.listing reports ++ "\n" }

/-- An error of the command itself, with what caused it. -/
def brokenOff (stdout context cause : String) : Result :=
  { exitCode := 1, stdout
    stderr := "Error: " ++ context ++ "\n\nCaused by:\n    " ++ cause ++ "\n" }

/-- The text of bytes that a session has written. -/
def textOf (bytes : ByteArray) : String :=
  Utf8.decodeLenient bytes

/-! ### Single files -/

/-- Lists the tokens of a source; lexical errors go to the messages. -/
def tokenizeSource (source : String) : Result :=
  let errors := (lexicalErrors source).map fun e => e.report.text
  { exitCode := if errors.isEmpty then 0 else 65
    stdout := lines ((tokens source).map Token.listing)
    stderr := lines errors }

/-- Shows a source as an expression in parenthesized form, or as the data of a program. -/
def parseSource (source : String) (asData : Bool) : Result :=
  let start := Cursor.start (tokens source) 0
  let (shown, errors) :=
    if asData then
      let (program, errors, _) := start.program
      (some (Program.dump program).pretty, errors)
    else
      let (value?, errors, _) := start.expression
      (value?.map Expr.printed, errors)
  let reports := Session.earlyReports source errors
  if reports.isEmpty then
    { exitCode := 0, stdout := lines shown.toList, stderr := "" }
  else
    stopped 65 "" (Diagnostic.sorted reports)

/-- Evaluates a source as one expression and writes its value. -/
def evaluateSource (source : String) : Result :=
  let (outcome, session) := (Session.start .unlimited).evaluate ampleSteps source
  let output := textOf session.output
  match outcome with
  | .ok value => { exitCode := 0, stdout := output ++ value.text ++ "\n", stderr := "" }
  | .error stop => stopped stop.exitCode output stop.reports

/-- Runs a source as a program. -/
def runSource (source : String) : Result :=
  let (outcome, session) := (Session.start .unlimited).run ampleSteps source
  let output := textOf session.output
  match outcome with
  | .ok _ => { exitCode := 0, stdout := output, stderr := "" }
  | .error stop => stopped stop.exitCode output stop.reports

/-- Reads a file and does something with its text. -/
def withSource (world : World) (path : String) (act : String → Result) : Result :=
  match world.read path with
  | .ok source => act source
  | .error message => { exitCode := 74, stdout := "", stderr := message ++ "\n" }

/-! ### The prompt -/

/-- The lines of standard input; the last need not be ended.  `line` holds the bytes of the
    current line from its end. -/
def inputLines (line : List UInt8) : List UInt8 → List (List UInt8)
  | [] => if line.isEmpty then [] else [line.reverse]
  | 0x0a :: bytes =>
    let ended :=
      match line with
      | 0x0d :: before => before
      | _ => line
    ended.reverse :: inputLines [] bytes
  | b :: bytes => inputLines (b :: line) bytes

/-- Runs the lines of the prompt in a session, after what was written so far. -/
def promptFrom (session : Session) (stdout stderr : String) : List (List UInt8) → Result
  | [] => { exitCode := 0, stdout := stdout ++ "> \n", stderr }
  | line :: rest =>
    let stdout := stdout ++ "> "
    match Utf8.decode ⟨line.toArray⟩ with
    | .error _ =>
      let broken :=
        brokenOff stdout "Failed to read from stdin" "stream did not contain valid UTF-8"
      { broken with stderr := stderr ++ broken.stderr }
    | .ok source =>
      let before := session.output.size
      let (outcome, session) := session.run ampleSteps source
      let output := session.output.extract before session.output.size
      let messages :=
        match outcome with
        | .ok _ => ""
        | .error stop => Diagnostic.listing stop.reports ++ "\n"
      promptFrom session (stdout ++ textOf output) (stderr ++ messages) rest

/-- Runs the prompt on all of standard input. -/
def prompt (stdin : ByteArray) : Result :=
  promptFrom (Session.start .unlimited) "" "" (inputLines [] stdin.toList)

/-! ### Running commands -/

/-- Runs a command. -/
def Command.perform (world : World) : Command → Result
  | .tokenize path => withSource world path tokenizeSource
  | .parse path asData => withSource world path fun source => parseSource source asData
  | .evaluate path => withSource world path evaluateSource
  | .run path => withSource world path runSource
  | .repl => prompt world.stdin

/-- Runs an invocation: the log file is made before the command starts. -/
def Invocation.perform (world : World) (invocation : Invocation) : Result :=
  match invocation.logPath with
  | none => invocation.command.perform world
  | some path =>
    match world.creationError? path with
    | none => invocation.command.perform world
    | some error => brokenOff "" ("Failed to create " ++ Quoted.name path) error.message

/-- What is said about arguments that ask for no command. -/
def usage : String :=
  "Usage: [--log] [--log-file FILE] tokenize FILE | parse [--json] FILE | evaluate FILE | run FILE | repl"

/-- Runs the command that arguments ask for. -/
def perform (world : World) (args : List String) : Result :=
  match Invocation.ofArguments? args with
  | some invocation => invocation.perform world
  | none => { exitCode := 2, stdout := "", stderr := usage ++ "\n" }

end Treewalk.CommandLine
