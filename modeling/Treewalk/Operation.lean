import Treewalk.Fault

/-!
# Operators

**Arithmetic and order are for two numbers; a sum is also for texts, and equality for all.**  A
sum of two strings joins them.  A sum of a string and a number joins the texts of both.  Where
an operand does not fit, the left one is blamed first.
-/

namespace Treewalk

namespace BinaryOp

/-- Both operands as numbers (`number_operands`). -/
def numberOperands (left right : Value) : Except FaultCause (Float × Float) :=
  match left, right with
  | .number a, .number b => .ok (a, b)
  | .number _, _ => .error .rightNotNumber
  | _, _ => .error .leftNotNumber

/-- An operation on two numbers. -/
def arithmetic (operation : Float → Float → Float) (left right : Value) :
    Except FaultCause Value :=
  match numberOperands left right with
  | .ok (a, b) => .ok (.number (operation a b))
  | .error cause => .error cause

/-- A comparison of two numbers. -/
def comparison (holds : Float → Float → Bool) (left right : Value) :
    Except FaultCause Value :=
  match numberOperands left right with
  | .ok (a, b) => .ok (.bool (holds a b))
  | .error cause => .error cause

/-- The sum of two numbers, or the joined texts of strings and numbers. -/
def sum (left right : Value) : Except FaultCause Value :=
  match left, right with
  | .number a, .number b => .ok (.number (a + b))
  | .string a, .string b => .ok (.string (a ++ b))
  | .string _, .number _ | .number _, .string _ => .ok (.string (left.text ++ right.text))
  | .number _, _ | .string _, _ => .error .rightNotAddable
  | _, _ => .error .leftNotAddable

/-- The result of a binary operator (`binary`). -/
def apply (op : BinaryOp) (left right : Value) : Except FaultCause Value :=
  match op with
  | .add => sum left right
  | .subtract => arithmetic (· - ·) left right
  | .multiply => arithmetic (· * ·) left right
  | .divide => arithmetic (· / ·) left right
  | .less => comparison (fun a b => decide (a < b)) left right
  | .lessEqual => comparison (fun a b => decide (a ≤ b)) left right
  | .greater => comparison (fun a b => decide (b < a)) left right
  | .greaterEqual => comparison (fun a b => decide (b ≤ a)) left right
  | .equal => .ok (.bool (left.equals right))
  | .notEqual => .ok (.bool (!left.equals right))

end BinaryOp

/-- The result of a unary operator. -/
def UnaryOp.apply (op : UnaryOp) (operand : Value) : Except FaultCause Value :=
  match op, operand with
  | .negate, .number a => .ok (.number (-a))
  | .negate, _ => .error .operandNotNumber
  | .not, value => .ok (.bool (!value.isTruthy))

/-- Does the left operand alone decide the result? -/
def LogicalOp.decides (op : LogicalOp) (left : Value) : Bool :=
  match op with
  | .or => left.isTruthy
  | .and => !left.isTruthy

end Treewalk
