import Treewalk.Token

/-!
# Syntax trees

**A program is a list of statements, and every place that refers to a variable has a number of
its own.**  Names are kept with their line, operators as what they compute with the line of
their symbol.  The numbers let a table about references be kept beside the tree: two
occurrences of one name are different references.

A `for` statement has no node of its own.  It is written with `block` and `whileLoop` when it
is parsed.
-/

namespace Treewalk

/-! ### Names and operators -/

/-- An occurrence of a name. -/
structure Name where
  text : String
  line : Nat
deriving DecidableEq, Repr, Inhabited

/-- The operators whose operands are both evaluated. -/
inductive BinaryOp where
  | add
  | subtract
  | multiply
  | divide
  | less
  | lessEqual
  | greater
  | greaterEqual
  | equal
  | notEqual
deriving DecidableEq, Repr

/-- The operators that may leave their right operand alone. -/
inductive LogicalOp where
  | and
  | or
deriving DecidableEq, Repr

/-- The operators in front of one operand. -/
inductive UnaryOp where
  | negate
  | not
deriving DecidableEq, Repr

/-- The token that writes an operator. -/
def BinaryOp.kind : BinaryOp → TokenKind
  | .add => .plus
  | .subtract => .minus
  | .multiply => .star
  | .divide => .slash
  | .less => .less
  | .lessEqual => .lessEqual
  | .greater => .greater
  | .greaterEqual => .greaterEqual
  | .equal => .equalEqual
  | .notEqual => .bangEqual

/-- The text that writes an operator. -/
def BinaryOp.symbol : BinaryOp → String
  | .add => "+"
  | .subtract => "-"
  | .multiply => "*"
  | .divide => "/"
  | .less => "<"
  | .lessEqual => "<="
  | .greater => ">"
  | .greaterEqual => ">="
  | .equal => "=="
  | .notEqual => "!="

@[inherit_doc BinaryOp.kind]
def LogicalOp.kind : LogicalOp → TokenKind
  | .and => .kwAnd
  | .or => .kwOr

@[inherit_doc BinaryOp.symbol]
def LogicalOp.symbol : LogicalOp → String
  | .and => "and"
  | .or => "or"

@[inherit_doc BinaryOp.kind]
def UnaryOp.kind : UnaryOp → TokenKind
  | .negate => .minus
  | .not => .bang

@[inherit_doc BinaryOp.symbol]
def UnaryOp.symbol : UnaryOp → String
  | .negate => "-"
  | .not => "!"

/-! ### Expressions -/

/-- A constant written in the source. -/
inductive Literal where
  | number (value : Float)
  | string (value : String)
  | true
  | false
  | nil

/-- An expression.  `id` is the number of a reference; `line` is the line of the symbol or
    keyword, and for a call that of its closing parenthesis. -/
inductive Expr where
  | literal (value : Literal)
  | grouping (inner : Expr)
  | unary (op : UnaryOp) (line : Nat) (operand : Expr)
  | binary (op : BinaryOp) (line : Nat) (left right : Expr)
  | logical (op : LogicalOp) (line : Nat) (left right : Expr)
  | variable (name : Name) (id : Nat)
  | assign (name : Name) (id : Nat) (value : Expr)
  | call (callee : Expr) (line : Nat) (arguments : List Expr)
  | get (object : Expr) (name : Name)
  | set (object : Expr) (name : Name) (value : Expr)
  | this (line : Nat) (id : Nat)
  | super (line : Nat) (id : Nat) (method : Name)

instance : Inhabited Expr := ⟨.literal .nil⟩

/-! ### Statements -/

/-- A name that refers to a variable, with the number of the reference. -/
structure Reference where
  name : Name
  id : Nat
deriving DecidableEq, Repr

mutual

/-- A statement or declaration. -/
inductive Stmt where
  | expression (value : Expr)
  | print (value : Expr)
  | var (name : Name) (initializer : Option Expr)
  | block (body : List Stmt)
  | ifElse (condition : Expr) (thenBranch : Stmt) (elseBranch : Option Stmt)
  | whileLoop (condition : Expr) (body : Stmt)
  | function (declaration : FunctionDecl)
  | return (line : Nat) (value : Option Expr)
  | class (name : Name) (superclass : Option Reference) (methods : List FunctionDecl)

/-- The declaration of a function or method. -/
structure FunctionDecl where
  name : Name
  params : List Name
  body : List Stmt

end

/-- A program is its statements, in order. -/
abbrev Program := List Stmt

instance : Inhabited Stmt := ⟨.block []⟩

instance : Inhabited FunctionDecl := ⟨⟨default, [], []⟩⟩

/-- The name of the method that a class runs on each new instance. -/
def initializerName : String := "init"

/-- Is this the declaration of a method that initializes instances? -/
def FunctionDecl.isInitializer (declaration : FunctionDecl) : Bool :=
  declaration.name.text == initializerName

end Treewalk
