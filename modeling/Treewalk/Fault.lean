import Treewalk.Diagnostic
import Treewalk.Sink
import Treewalk.Store

/-!
# Why a run stops

**A run that does not finish fails, breaks an invariant, or runs out of steps.**  It fails when
the program asks for what cannot be done, or when its output cannot be written; either is
reported.  An invariant breaks only if hop counts do not fit the program.  Steps run out only
if a bound was set on them.
-/

namespace Treewalk

/-- What a program asked for that cannot be done. -/
inductive FaultCause where
  | undefinedVariable (name : String)
  | undefinedProperty (name : String)
  | superclassNotClass
  | noProperties
  | noFields
  | notCallable
  | wrongArity (expected given : Nat) (callee : String)
  | operandNotNumber
  | leftNotNumber
  | rightNotNumber
  | leftNotAddable
  | rightNotAddable
  | superOutsideClass
  | superOutsideMethod
deriving DecidableEq, Repr

/-- What the fault says. -/
def FaultCause.message : FaultCause → String
  | .undefinedVariable name => "Undefined variable '" ++ name ++ "'."
  | .undefinedProperty name => "Undefined property '" ++ name ++ "'."
  | .superclassNotClass => "Superclass must be a class."
  | .noProperties => "Only instances have properties."
  | .noFields => "Only instances have fields."
  | .notCallable => "Can only call functions and classes."
  | .wrongArity expected given callee =>
    s!"Expected {expected} arguments but got {given} in call to " ++ callee ++ "."
  | .operandNotNumber => "Operand must be a number."
  | .leftNotNumber => "Left operand must be a number."
  | .rightNotNumber => "Right operand must be a number."
  | .leftNotAddable => "Left operand must be a number or a string."
  | .rightNotAddable => "Right operand must be a number or a string."
  | .superOutsideClass => "Can't use 'super' outside of a class."
  | .superOutsideMethod => "Can't use 'super' outside of a method."

/-- A fault at a name, symbol or keyword of the source. -/
structure Fault where
  site : Name
  cause : FaultCause
deriving DecidableEq, Repr

/-- What makes a run fail. -/
inductive Failure where
  | fault (fault : Fault)
  | sink (error : SinkError)
deriving DecidableEq, Repr

/-- The report of a failure. -/
def Failure.report : Failure → Diagnostic
  | .fault f => .runtime f.site.line f.site.text f.cause.message
  | .sink error => .output error.message

/-- Why a run stops before its end. -/
inductive Halt where
  | failure (failure : Failure)
  | breach (breach : Breach)
  | outOfSteps
deriving DecidableEq, Repr

end Treewalk
