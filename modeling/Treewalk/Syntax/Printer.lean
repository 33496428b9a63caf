import Treewalk.Syntax

/-!
# Expressions in parenthesized form

**The printed form of an expression shows how its parts nest.**  Every operator is written in
front of its operands, and the whole in parentheses.  Constants, names and `this` stand for
themselves; a string is written without quotes.
-/

namespace Treewalk

/-- The text of a constant in printed trees. -/
def Literal.text : Literal → String
  | .number value => Decimal.literalText value
  | .string value => value
  | .true => "true"
  | .false => "false"
  | .nil => "nil"

mutual

/-- The parenthesized form of an expression (`AstPrinter::print`). -/
def Expr.printed : Expr → String
  | .literal value => value.text
  | .grouping inner => "(group " ++ inner.printed ++ ")"
  | .unary op _ operand => "(" ++ op.symbol ++ " " ++ operand.printed ++ ")"
  | .binary op _ left right =>
    "(" ++ op.symbol ++ " " ++ left.printed ++ " " ++ right.printed ++ ")"
  | .logical op _ left right =>
    "(" ++ op.symbol ++ " " ++ left.printed ++ " " ++ right.printed ++ ")"
  | .variable name _ => name.text
  | .assign name _ value => "(= " ++ name.text ++ " " ++ value.printed ++ ")"
  | .call callee _ args => "(call " ++ callee.printed ++ printedArguments args ++ ")"
  | .get object name => "(. " ++ object.printed ++ " " ++ name.text ++ ")"
  | .set object name value =>
    "(= (. " ++ object.printed ++ " " ++ name.text ++ ") " ++ value.printed ++ ")"
  | .this _ _ => "this"
  | .super _ _ method => "(super " ++ method.text ++ ")"

/-- The arguments of a call, each after a blank. -/
def printedArguments : List Expr → String
  | [] => ""
  | argument :: args => " " ++ argument.printed ++ printedArguments args

end

end Treewalk
