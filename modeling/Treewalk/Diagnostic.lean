import Treewalk.Token

/-!
# Diagnostics

**Whatever goes wrong is reported in one form: the stage that found it, a place, a message.**
Errors of the lexical stage have a line only.  Errors of syntax and of name binding also name
the lexeme they stand at, or the end of the source.  Errors of a running program name the
lexeme of the operation that failed.  A failing output has no place in the source.
-/

namespace Treewalk

/-! ### Places -/

/-- The place of a static error within its line. -/
inductive Place where
  | lexeme (text : String)
  | endOfSource
deriving DecidableEq, Repr

namespace Place

/-- The place of a token (`location_of`). -/
def ofToken (t : Token) : Place :=
  if t.isEnd then .endOfSource else .lexeme t.lexeme

/-- The place in a report, with a blank in front. -/
def text : Place → String
  | .lexeme text => " at '" ++ text ++ "'"
  | .endOfSource => " at end"

end Place

/-! ### Reports -/

/-- A reported error. -/
inductive Diagnostic where
  | lexical (line : Nat) (message : String)
  | syntactic (line : Nat) (place : Place) (message : String)
  | binding (line : Nat) (place : Place) (message : String)
  | runtime (line : Nat) (lexeme : String) (message : String)
  | output (message : String)
deriving DecidableEq, Repr

namespace Diagnostic

/-- The line of the error, if it has one. -/
def line? : Diagnostic → Option Nat
  | .lexical line _ => some line
  | .syntactic line _ _ => some line
  | .binding line _ _ => some line
  | .runtime line _ _ => some line
  | .output _ => none

/-- The message without its place. -/
def message : Diagnostic → String
  | .lexical _ message => message
  | .syntactic _ _ message => message
  | .binding _ _ message => message
  | .runtime _ _ message => message
  | .output message => message

/-- What the report names besides the line, if anything. -/
def site? : Diagnostic → Option String
  | .lexical _ _ => none
  | .syntactic _ place _ => some place.text
  | .binding _ place _ => some place.text
  | .runtime _ lexeme _ => some lexeme
  | .output _ => none

/-- The report as one line of text. -/
def text : Diagnostic → String
  | .lexical line message => s!"[line {line}] Error: " ++ message
  | .syntactic line place message => s!"[line {line}] Error" ++ place.text ++ ": " ++ message
  | .binding line place message => s!"[line {line}] Error" ++ place.text ++ ": " ++ message
  | .runtime line lexeme message =>
    s!"[line {line}] Runtime error at '" ++ lexeme ++ "': " ++ message
  | .output message => message

/-! ### Lists of reports -/

/-- The largest line that can be counted. -/
def lastLine : Nat := Nat.pow 2 64 - 1

/-- The line by which a report is sorted; one without a line goes to the last. -/
def sortLine (d : Diagnostic) : Nat :=
  d.line?.getD lastLine

/-- May `a` stand before `b` in a list in source order? -/
def notAfter (a b : Diagnostic) : Bool :=
  decide (a.sortLine ≤ b.sortLine)

/-- The reports in source order; those of one line keep the order in which they were found
    (`sort_by_line`). -/
def sorted (reports : List Diagnostic) : List Diagnostic :=
  reports.mergeSort notAfter

/-- The reports as text, one on a line. -/
def listing (reports : List Diagnostic) : String :=
  "\n".intercalate (reports.map text)

end Diagnostic

end Treewalk
