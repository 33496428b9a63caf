import Treewalk.Diagnostic

/-!
# Syntax errors

**A syntax error is what the grammar wanted, and the token that stood there instead.**  Three
errors do not stop the construct they are found in: an assignment to something that is no
target, and a parameter or argument list that grows beyond its limit.
-/

namespace Treewalk

/-- Functions and methods are declared alike; messages tell them apart. -/
inductive FunctionForm where
  | function
  | method
deriving DecidableEq, Repr

/-- The word for a form of function in messages. -/
def FunctionForm.word : FunctionForm → String
  | .function => "function"
  | .method => "method"

/-- What the grammar wants at a place. -/
inductive Wanted where
  | className
  | superclassName
  | classOpening
  | classClosing
  | functionName (form : FunctionForm)
  | functionParen (form : FunctionForm)
  | parameterName
  | parametersClosing
  | functionOpening (form : FunctionForm)
  | variableName
  | variableEnd
  | forParen
  | loopConditionEnd
  | forClosing
  | ifParen
  | ifClosing
  | printEnd
  | returnEnd
  | whileParen
  | whileClosing
  | expressionEnd
  | blockClosing
  | propertyName
  | argumentsClosing
  | superDot
  | superMethodName
  | groupingClosing
  | expression
  | endOfExpression
deriving DecidableEq, Repr

/-- Why a token sequence is not in the grammar. -/
inductive SyntaxFault where
  | wanted (what : Wanted)
  | invalidAssignmentTarget
  | tooManyParameters
  | tooManyArguments
  /-- The number of steps granted to the parser ran out. -/
  | outOfSteps
deriving DecidableEq, Repr

/-- A syntax error and the token it stands at. -/
structure SyntaxError where
  token : Token
  fault : SyntaxFault

/-- The largest number of parameters or arguments. -/
def maxArity : Nat := 255

/-- Names what is wanted, with the place in the construct. -/
def Wanted.text : Wanted → String
  | .className => "class name"
  | .superclassName => "superclass name"
  | .classOpening => "'\x7b' before class body"
  | .classClosing => "'\x7d' after class body"
  | .functionName form => form.word ++ " name"
  | .functionParen form => "'(' after " ++ form.word ++ " name"
  | .parameterName => "parameter name"
  | .parametersClosing => "')' after parameters"
  | .functionOpening form => "'\x7b' before " ++ form.word ++ " body"
  | .variableName => "variable name"
  | .variableEnd => "';' after variable declaration"
  | .forParen => "'(' after 'for'"
  | .loopConditionEnd => "';' after loop condition"
  | .forClosing => "')' after for clauses"
  | .ifParen => "'(' after 'if'"
  | .ifClosing => "')' after if condition"
  | .printEnd => "';' after value"
  | .returnEnd => "';' after return value"
  | .whileParen => "'(' after 'while'"
  | .whileClosing => "')' after while condition"
  | .expressionEnd => "';' after expression"
  | .blockClosing => "'\x7d' after block"
  | .propertyName => "property name after '.'"
  | .argumentsClosing => "')' after arguments"
  | .superDot => "'.' after 'super'"
  | .superMethodName => "superclass method name"
  | .groupingClosing => "')' after expression"
  | .expression => "expression"
  | .endOfExpression => "end of expression"

/-- What the error says. -/
def SyntaxFault.message : SyntaxFault → String
  | .wanted what => "Expected " ++ what.text ++ "."
  | .invalidAssignmentTarget => "Invalid assignment target."
  | .tooManyParameters => s!"Can't have more than {maxArity} parameters."
  | .tooManyArguments => s!"Can't have more than {maxArity} arguments."
  | .outOfSteps => "Out of steps."

/-- The report of a syntax error. -/
def SyntaxError.report (e : SyntaxError) : Diagnostic :=
  .syntactic e.token.line (.ofToken e.token) e.fault.message

end Treewalk
