import Mathlib.Data.List.Forall2
import Mathlib.Logic.Equiv.Basic
import Treewalk.Machine
import Treewalk.Proofs.Syntax.References

/-!
# Programs and stores that are alike

**Two runs are alike when they do the same with names, lines and hop counts that may differ.**
A correspondence says how they may differ: each run has its own table of hop counts, lines are
related in some way, and the names of one scope may be exchanged.

Which names are exchanged is decided for each scope, and so for each frame.  A reference is to
be changed in the way of the scope that its hop count leads to; without a hop count it is a
global name and stays.  References have the same hop count in both tables, and those inside
functions must be among the kept ones, since such code can run again with other tables.
-/

namespace Treewalk

/-- How the names of a scope are exchanged. -/
abbrev Renaming := Equiv.Perm String

/-- All names stay as they are. -/
abbrev Renaming.same : Renaming := Equiv.refl String

/-- How two runs may differ.  Names that are exchanged are reported only if they occur on the
left. -/
structure Correspondence where
  left : HopTable
  right : HopTable
  kept : Nat → Prop
  lines : Nat → Nat → Prop
  renames : Renaming → Prop
  occurs : String → Prop
  renames_same : renames .same
  renames_this : ∀ π, renames π → π "this" = "this"

/-! ### Syntax -/

namespace Correspondence

variable (c : Correspondence)

/-- The same name, as the names of a scope are exchanged. -/
structure NameLike (π : Renaming) (name name' : Name) : Prop where
  text : name'.text = π name.text
  line : c.lines name.line name'.line

/-- How the names of the scope are exchanged that a hop count leads to. -/
def atHops (renamings : List (Renaming)) : Option Nat → Renaming
  | some hops => renamings.getD hops .same
  | none => .same

/-- The same reference, from inside scopes whose names are exchanged. -/
structure RefLike (renamings : List (Renaming)) (id : Nat) (text text' : String) :
    Prop where
  hops : c.left[id]? = c.right[id]?
  text : text' = atHops renamings c.left[id]? text

mutual

/-- The same expression. -/
inductive ExprLike (renamings : List (Renaming)) : Expr → Expr → Prop
  | literal (value : Literal) : ExprLike renamings (.literal value) (.literal value)
  | grouping {inner inner' : Expr} (h : ExprLike renamings inner inner') :
    ExprLike renamings (.grouping inner) (.grouping inner')
  | unary {op : UnaryOp} {line line' : Nat} {operand operand' : Expr} (hline : c.lines line line')
    (h : ExprLike renamings operand operand') :
    ExprLike renamings (.unary op line operand) (.unary op line' operand')
  | binary {op : BinaryOp} {line line' : Nat} {left left' right right' : Expr}
    (hline : c.lines line line') (hleft : ExprLike renamings left left')
    (hright : ExprLike renamings right right') :
    ExprLike renamings (.binary op line left right) (.binary op line' left' right')
  | logical {op : LogicalOp} {line line' : Nat} {left left' right right' : Expr}
    (hleft : ExprLike renamings left left') (hright : ExprLike renamings right right') :
    ExprLike renamings (.logical op line left right) (.logical op line' left' right')
  | variable {name name' : Name} {id : Nat} (hline : c.lines name.line name'.line)
    (h : RefLike c renamings id name.text name'.text) :
    ExprLike renamings (.variable name id) (.variable name' id)
  | assign {name name' : Name} {id : Nat} {value value' : Expr}
    (hline : c.lines name.line name'.line) (h : RefLike c renamings id name.text name'.text)
    (hvalue : ExprLike renamings value value') :
    ExprLike renamings (.assign name id value) (.assign name' id value')
  | call {callee callee' : Expr} {line line' : Nat} {args args' : List Expr}
    (hcallee : ExprLike renamings callee callee') (hline : c.lines line line')
    (hargs : ArgumentsLike renamings args args') :
    ExprLike renamings (.call callee line args) (.call callee' line' args')
  | get {object object' : Expr} {name name' : Name} (h : ExprLike renamings object object')
    (hname : NameLike c .same name name') : ExprLike renamings (.get object name) (.get object' name')
  | set {object object' value value' : Expr} {name name' : Name}
    (h : ExprLike renamings object object') (hname : NameLike c .same name name')
    (hvalue : ExprLike renamings value value') :
    ExprLike renamings (.set object name value) (.set object' name' value')
  | this {line line' id : Nat} (hline : c.lines line line')
    (h : RefLike c renamings id "this" "this") :
    ExprLike renamings (.this line id) (.this line' id)
  | super {line line' id : Nat} {method method' : Name} (hline : c.lines line line')
    (hsuper : RefLike c renamings id "super" "super") (hname : NameLike c .same method method') :
    ExprLike renamings (.super line id method) (.super line' id method')

/-- The same arguments. -/
inductive ArgumentsLike (renamings : List (Renaming)) : List Expr → List Expr → Prop
  | nil : ArgumentsLike renamings [] []
  | cons {argument argument' : Expr} {args args' : List Expr}
    (h : ExprLike renamings argument argument') (hargs : ArgumentsLike renamings args args') :
    ArgumentsLike renamings (argument :: args) (argument' :: args')

end

/-- The same expression, or none in both places. -/
abbrev OptionalLike (renamings : List (Renaming)) : Option Expr → Option Expr → Prop :=
  Option.Rel (ExprLike c renamings)

/-- The same superclass. -/
structure SuperclassLike (renamings : List (Renaming)) (parent parent' : Reference) :
    Prop where
  id : parent'.id = parent.id
  line : c.lines parent.name.line parent'.name.line
  ref : RefLike c renamings parent.id parent.name.text parent'.name.text
  occurs : c.occurs parent.name.text

/-- How names are exchanged in the scopes around the methods of a class. -/
def methodRenamings (derived : Bool) (renamings : List (Renaming)) :
    List (Renaming) :=
  .same :: if derived then .same :: renamings else renamings

mutual

/-- The same statement. -/
inductive StmtLike : List (Renaming) → Stmt → Stmt → Prop
  | expression {renamings : List (Renaming)} {value value' : Expr}
    (h : ExprLike c renamings value value') :
    StmtLike renamings (.expression value) (.expression value')
  | print {renamings : List (Renaming)} {value value' : Expr}
    (h : ExprLike c renamings value value') : StmtLike renamings (.print value) (.print value')
  | var {renamings : List (Renaming)} {name name' : Name}
    {initializer initializer' : Option Expr} (hname : NameLike c (renamings.headD .same) name name')
    (h : OptionalLike c renamings initializer initializer') :
    StmtLike renamings (.var name initializer) (.var name' initializer')
  | block {renamings : List (Renaming)} {π : Renaming} {body body' : List Stmt}
    (hπ : c.renames π) (h : StatementsLike (π :: renamings) body body') :
    StmtLike renamings (.block body) (.block body')
  | ifThen {renamings : List (Renaming)} {condition condition' : Expr}
    {thenBranch thenBranch' : Stmt} (hcondition : ExprLike c renamings condition condition')
    (hthen : StmtLike renamings thenBranch thenBranch') :
    StmtLike renamings (.ifElse condition thenBranch none) (.ifElse condition' thenBranch' none)
  | ifElse {renamings : List (Renaming)} {condition condition' : Expr}
    {thenBranch thenBranch' elseBranch elseBranch' : Stmt}
    (hcondition : ExprLike c renamings condition condition')
    (hthen : StmtLike renamings thenBranch thenBranch')
    (helse : StmtLike renamings elseBranch elseBranch') :
    StmtLike renamings (.ifElse condition thenBranch (some elseBranch))
      (.ifElse condition' thenBranch' (some elseBranch'))
  | whileLoop {renamings : List (Renaming)} {condition condition' : Expr}
    {body body' : Stmt} (hcondition : ExprLike c renamings condition condition')
    (hbody : StmtLike renamings body body') :
    StmtLike renamings (.whileLoop condition body) (.whileLoop condition' body')
  | function {renamings : List (Renaming)} {f f' : FunctionDecl}
    (hname : renamings.headD .same f.name.text = f.name.text) (h : FunctionLike renamings f f') :
    StmtLike renamings (.function f) (.function f')
  | return {renamings : List (Renaming)} {line line' : Nat} {value value' : Option Expr}
    (h : OptionalLike c renamings value value') :
    StmtLike renamings (.return line value) (.return line' value')
  | class {renamings : List (Renaming)} {name name' : Name}
    {superclass superclass' : Option Reference} {methods methods' : List FunctionDecl}
    (hfixed : renamings.headD .same name.text = name.text) (hname : NameLike c .same name name')
    (hsuperclass : Option.Rel (SuperclassLike c renamings) superclass superclass')
    (hmethods : MethodsLike (methodRenamings superclass.isSome renamings) methods methods') :
    StmtLike renamings (.class name superclass methods) (.class name' superclass' methods')

/-- The same function.  What it refers to is kept. -/
inductive FunctionLike : List (Renaming) → FunctionDecl → FunctionDecl → Prop
  | mk {renamings : List (Renaming)} {π : Renaming} {name name' : Name}
    {params params' : List Name} {body body' : List Stmt} (hπ : c.renames π)
    (hname : NameLike c .same name name') (hparams : List.Forall₂ (NameLike c π) params params')
    (hkept : ∀ id ∈ statementReferences body, c.kept id)
    (hbody : StatementsLike (π :: renamings) body body') :
    FunctionLike renamings ⟨name, params, body⟩ ⟨name', params', body'⟩

/-- The same statements. -/
inductive StatementsLike : List (Renaming) → List Stmt → List Stmt → Prop
  | nil {renamings : List (Renaming)} : StatementsLike renamings [] []
  | cons {renamings : List (Renaming)} {s s' : Stmt} {rest rest' : List Stmt}
    (h : StmtLike renamings s s') (hrest : StatementsLike renamings rest rest') :
    StatementsLike renamings (s :: rest) (s' :: rest')

/-- The same methods. -/
inductive MethodsLike : List (Renaming) → List FunctionDecl → List FunctionDecl → Prop
  | nil {renamings : List (Renaming)} : MethodsLike renamings [] []
  | cons {renamings : List (Renaming)} {method method' : FunctionDecl}
    {rest rest' : List FunctionDecl} (h : FunctionLike renamings method method')
    (hrest : MethodsLike renamings rest rest') :
    MethodsLike renamings (method :: rest) (method' :: rest')

end

end Correspondence

end Treewalk
