import Treewalk.Json
import Treewalk.Syntax

/-!
# Syntax trees as data

**A dump of a tree names the kind of each node and shows the tokens it was built from.**  A node
is an object with one field, named for its kind; a kind without parts is its bare name.  Names,
operators and keywords are written as tokens.
-/

namespace Treewalk

/-! ### Tokens -/

/-- A kind of token: its name, with the constant if it carries one. -/
def TokenKind.toJson (kind : TokenKind) : Json :=
  match kind with
  | .string value => .tagged kind.name (.string value)
  | .number value => .tagged kind.name (.number value)
  | _ => .string kind.name

/-- The token of this kind, written `lexeme` on `line`. -/
def tokenJson (kind : TokenKind) (lexeme : String) (line : Nat) : Json :=
  .object [("token_type", kind.toJson), ("lexeme", .string lexeme), ("line", .nat line)]

/-- A name is written as a token. -/
def Name.toJson (name : Name) : Json :=
  tokenJson .identifier name.text name.line

/-! ### Expressions -/

/-- A constant. -/
def Literal.toJson : Literal → Json
  | .number value => .tagged "Number" (.number value)
  | .string value => .tagged "Str" (.string value)
  | .true => .string "True"
  | .false => .string "False"
  | .nil => .string "Nil"

/-- A reference to a variable. -/
def variableJson (name : Name) (id : Nat) : Json :=
  .tagged "Variable" (.object [("name", name.toJson), ("id", .nat id)])

/-- Two operands with the operator between them. -/
def joinedJson (tag : String) (left operator right : Json) : Json :=
  .tagged tag (.object [("left", left), ("operator", operator), ("right", right)])

mutual

/-- An expression. -/
def Expr.toJson : Expr → Json
  | .literal value => .tagged "Literal" value.toJson
  | .grouping inner => .tagged "Grouping" inner.toJson
  | .unary op line operand =>
    .tagged "Unary" (.object
      [("operator", tokenJson op.kind op.symbol line), ("right", operand.toJson)])
  | .binary op line left right =>
    joinedJson "Binary" left.toJson (tokenJson op.kind op.symbol line) right.toJson
  | .logical op line left right =>
    joinedJson "Logical" left.toJson (tokenJson op.kind op.symbol line) right.toJson
  | .variable name id => variableJson name id
  | .assign name id value =>
    .tagged "Assign" (.object
      [("name", name.toJson), ("value", value.toJson), ("id", .nat id)])
  | .call callee line args =>
    .tagged "Call" (.object
      [("callee", callee.toJson), ("paren", tokenJson .rightParen ")" line),
       ("arguments", .array (argumentsJson args))])
  | .get object name =>
    .tagged "Get" (.object [("object", object.toJson), ("name", name.toJson)])
  | .set object name value =>
    .tagged "Set" (.object
      [("object", object.toJson), ("name", name.toJson), ("value", value.toJson)])
  | .this line id =>
    .tagged "This" (.object [("keyword", tokenJson .kwThis "this" line), ("id", .nat id)])
  | .super line id method =>
    .tagged "Super" (.object
      [("keyword", tokenJson .kwSuper "super" line), ("method", method.toJson),
       ("id", .nat id)])

/-- The arguments of a call. -/
def argumentsJson : List Expr → List Json
  | [] => []
  | argument :: args => argument.toJson :: argumentsJson args

end

/-! ### Statements -/

/-- An expression that may be missing. -/
def optionalJson (value : Option Expr) : Json :=
  .ofOption (value.map Expr.toJson)

mutual

/-- A statement. -/
def Stmt.toJson : Stmt → Json
  | .expression value => .tagged "Expression" value.toJson
  | .print value => .tagged "Print" value.toJson
  | .var name initializer =>
    .tagged "Var" (.object [("name", name.toJson), ("initializer", optionalJson initializer)])
  | .block body => .tagged "Block" (.array (statementsJson body))
  | .ifElse condition thenBranch elseBranch =>
    .tagged "If" (.object
      [("condition", condition.toJson), ("then_branch", thenBranch.toJson),
       ("else_branch",
        match elseBranch with
        | some branch => branch.toJson
        | none => .null)])
  | .whileLoop condition body =>
    .tagged "While" (.object [("condition", condition.toJson), ("body", body.toJson)])
  | .function declaration => .tagged "Function" declaration.toJson
  | .return line value =>
    .tagged "Return" (.object
      [("keyword", tokenJson .kwReturn "return" line), ("value", optionalJson value)])
  | .class name superclass methods =>
    .tagged "Class" (.object
      [("name", name.toJson),
       ("superclass", .ofOption (superclass.map fun r => variableJson r.name r.id)),
       ("methods", .array (declarationsJson methods))])

/-- A function or method. -/
def FunctionDecl.toJson : FunctionDecl → Json
  | ⟨name, params, body⟩ =>
    .object
      [("name", name.toJson), ("params", .array (params.map Name.toJson)),
       ("body", .array (statementsJson body))]

/-- A list of statements. -/
def statementsJson : List Stmt → List Json
  | [] => []
  | statement :: rest => statement.toJson :: statementsJson rest

/-- The methods of a class. -/
def declarationsJson : List FunctionDecl → List Json
  | [] => []
  | declaration :: rest => declaration.toJson :: declarationsJson rest

end

/-- A whole program. -/
def Program.dump (program : Program) : Json :=
  .array (statementsJson program)

end Treewalk
