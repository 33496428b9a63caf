import Treewalk.Evaluation
import Treewalk.Syntax.Parser
import Treewalk.Token.Lexer

/-!
# Sessions

**A session runs one source after another on the same machine.**  Later sources see the
variables, functions and classes of earlier ones.  A source with a static error is rejected as
a whole and nothing of it runs; all its errors are reported together, in source order.

References are numbered through the whole session, so that hop counts of different sources do
not get in each other's way.  The hop counts of code outside functions are dropped when the
source has run, since that code never runs again.
-/

namespace Treewalk

/-- The machine, and the number of the next reference. -/
structure Session where
  machine : Machine
  nextId : Nat

/-- Why a source did not run to its end. -/
inductive Stop where
  /-- Nothing ran: the static errors, in source order. -/
  | rejected (reports : List Diagnostic)
  | halted (halt : Halt)

/-- The exit code of a process that stops for this reason (`exit_code`). -/
def Stop.exitCode : Stop → Nat
  | .rejected _ => 65
  | .halted _ => 70

/-- The reports of a stop.  There is one for each static error, and one for a failure. -/
def Stop.reports : Stop → List Diagnostic
  | .rejected reports => reports
  | .halted (.failure failure) => [failure.report]
  | .halted _ => []

namespace Session

/-- A session before its first source (`Session::with_output`). -/
def start (outside : Outside) : Session :=
  { machine := .initial outside, nextId := 0 }

/-- The reports of the lexical errors of a source and of its syntax errors, in this order. -/
def earlyReports (source : String) (errors : List SyntaxError) : List Diagnostic :=
  (lexicalErrors source).map LexicalError.report ++ errors.map SyntaxError.report

/-- Runs something with the hop counts of its source.  The counts of code outside functions are
    dropped afterwards, however the run ends. -/
def runWith {α : Type} (s : Session) (bindings : Bindings) (body : Run α) :
    Except Stop α × Session :=
  match s with
  | ⟨machine, nextId⟩ =>
    match body (machine.learn bindings.hops) with
    | .ok result m => (.ok result, ⟨m.forget bindings.topLevel, nextId⟩)
    | .error halt m => (.error (.halted halt), ⟨m.forget bindings.topLevel, nextId⟩)

/-- Runs something unless the source has static errors (`prepare`).  Names are bound only in a
    source without lexical and syntax errors. -/
def runChecked {α : Type} (s : Session) (early : List Diagnostic) (bindings : Bindings)
    (body : Run α) : Except Stop α × Session :=
  if early.isEmpty then
    if bindings.errors.isEmpty then
      s.runWith bindings body
    else
      (.error (.rejected (Diagnostic.sorted (bindings.errors.map BindingError.report))), s)
  else
    (.error (.rejected (Diagnostic.sorted early)), s)

/-- Runs a source as a program (`Session::run`). -/
def run (steps : Nat) (s : Session) (source : String) : Except Stop PUnit × Session :=
  let (program, errors, cursor) := (Cursor.start (tokens source) s.nextId).program
  { s with nextId := cursor.nextId }.runChecked (earlyReports source errors) (Program.bindings program)
    (Run.interpret steps program)

/-- Evaluates a source as a single expression (`Session::evaluate`). -/
def evaluate (steps : Nat) (s : Session) (source : String) : Except Stop Value × Session :=
  let (value?, errors, cursor) := (Cursor.start (tokens source) s.nextId).expression
  let s := { s with nextId := cursor.nextId }
  match value? with
  | some value =>
    s.runChecked (earlyReports source errors) value.bindings (Run.evaluate steps value)
  | none => (.error (.rejected (Diagnostic.sorted (earlyReports source errors))), s)

/-- The number of references whose hop counts are kept (`resolved_len`). -/
def resolvedCount (s : Session) : Nat :=
  s.machine.hops.size

/-- The bytes written so far. -/
def output (s : Session) : ByteArray :=
  s.machine.sink.written

end Session

end Treewalk
