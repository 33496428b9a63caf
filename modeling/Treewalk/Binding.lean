import Std.Data.ExtTreeMap
import Treewalk.Diagnostic
import Treewalk.Syntax

/-!
# Static binding of names

**Which variable a reference means can be read off the source.**  Scopes nest as blocks,
parameter lists with their bodies, and classes do; a reference means the innermost scope that
has declared its name so far.  The number of scopes between the two is its hop count.  A
reference without a hop count means a global variable, since declarations outside every scope
are not recorded.

A class opens a scope that holds `this` around its methods.  If it has a superclass, another
one around that holds `super`.

The walk over the tree also reports what can be seen to be wrong without running anything.  It
never stops at an error.
-/

namespace Treewalk

/-! ### Errors -/

/-- What is wrong with a declaration, reference or `return`. -/
inductive BindingFault where
  | alreadyDeclared
  | ownInitializer
  | topLevelReturn
  | initializerReturn
  | selfInheritance
  | thisOutsideClass
  | superOutsideClass
  | superWithoutSuperclass
deriving DecidableEq, Repr

/-- A binding error at a name or keyword. -/
structure BindingError where
  site : Name
  fault : BindingFault
deriving DecidableEq, Repr

/-- What the error says. -/
def BindingFault.message : BindingFault → String
  | .alreadyDeclared => "Already a variable with this name in this scope."
  | .ownInitializer => "Can't read local variable in its own initializer."
  | .topLevelReturn => "Can't return from top-level code."
  | .initializerReturn => "Can't return a value from an initializer."
  | .selfInheritance => "A class can't inherit from itself."
  | .thisOutsideClass => "Can't use 'this' outside of a class."
  | .superOutsideClass => "Can't use 'super' outside of a class."
  | .superWithoutSuperclass => "Can't use 'super' in a class with no superclass."

/-- The report of a binding error. -/
def BindingError.report (e : BindingError) : Diagnostic :=
  .binding e.site.line (.lexeme e.site.text) e.fault.message

/-! ### Scopes and tables -/

/-- How far the declaration of a name has come. -/
inductive Standing where
  /-- Its initializer is still being read. -/
  | declared
  | defined
deriving DecidableEq, Repr

/-- The names of one scope. -/
abbrev Scope := Std.ExtTreeMap String Standing

/-- The hop counts of references, by number. -/
abbrev HopTable := Std.ExtTreeMap Nat Nat

/-- The innermost function around a place. -/
inductive FunctionContext where
  | none
  | function
  | method
  | initializer
deriving DecidableEq, Repr

/-- The innermost class around a place. -/
inductive ClassContext where
  | none
  | plain
  | derived
deriving DecidableEq, Repr

/-- What surrounds a place in the source. -/
structure Surroundings where
  inFunction : FunctionContext
  inClass : ClassContext
deriving DecidableEq, Repr

/-- Nothing surrounds the top level. -/
def Surroundings.topLevel : Surroundings := ⟨.none, .none⟩

/-- The context of the body of a method. -/
def FunctionDecl.methodContext (declaration : FunctionDecl) : FunctionContext :=
  if declaration.isInitializer then .initializer else .method

/-- What a walk has collected up to some place (`Resolver`). -/
structure Bindings where
  /-- The scopes around the place, the innermost first. -/
  scopes : List Scope
  hops : HopTable
  /-- The references with a hop count that lie outside every function, in the order in which
      they were met. -/
  topLevel : List Nat
  errors : List BindingError

namespace Bindings

/-- Nothing is collected at the start (`Resolver::new`). -/
def empty : Bindings :=
  { scopes := [], hops := ∅, topLevel := [], errors := [] }

/-- Notes an error (`Resolver::error`). -/
def note (b : Bindings) (site : Name) (fault : BindingFault) : Bindings :=
  { b with errors := b.errors ++ [⟨site, fault⟩] }

/-- Notes an error if a condition holds. -/
def noteIf (b : Bindings) (condition : Bool) (site : Name) (fault : BindingFault) : Bindings :=
  if condition then b.note site fault else b

/-- Opens a scope (`begin_scope`). -/
def enter (b : Bindings) : Bindings :=
  { b with scopes := ∅ :: b.scopes }

/-- Closes the innermost scope (`end_scope`). -/
def leave (b : Bindings) : Bindings :=
  { b with scopes := b.scopes.tail }

/-- Puts a name into the innermost scope; at the top level there is none.  This is how `this` and
    `super` are put there (`define_synthetic`). -/
def put (b : Bindings) (text : String) (standing : Standing) : Bindings :=
  match b.scopes with
  | [] => b
  | scope :: outer => { b with scopes := scope.insert text standing :: outer }

/-- Is the name in the innermost scope already? -/
def isTaken (b : Bindings) (text : String) : Bool :=
  b.scopes.head?.any fun scope => scope.contains text

/-- Declares a name in the innermost scope, which may hold it only once (`Resolver::declare`). -/
def declare (b : Bindings) (name : Name) : Bindings :=
  (b.put name.text .declared).noteIf (b.isTaken name.text) name .alreadyDeclared

/-- Makes a declared name ready for use (`Resolver::define`). -/
def define (b : Bindings) (name : Name) : Bindings :=
  b.put name.text .defined

/-- Is a name in the innermost scope, with its initializer still being read? -/
def isUnready (b : Bindings) (text : String) : Bool :=
  b.scopes.head?.any fun scope => scope[text]? == some .declared

/-- Records the hop count of a reference: the number of scopes inside the innermost one that
    holds the name (`resolve_local`).  Without such a scope the reference is global and is not
    recorded. -/
def refer (b : Bindings) (around : Surroundings) (id : Nat) (text : String) : Bindings :=
  match b.scopes.findIdx? fun scope => scope.contains text with
  | none => b
  | some hops =>
    { b with
      hops := b.hops.insert id hops
      topLevel := if around.inFunction = .none then b.topLevel ++ [id] else b.topLevel }

end Bindings

/-! ### The walk over expressions -/

/-- The rules for `super`: a class with a superclass is needed. -/
def Bindings.checkSuper (b : Bindings) (around : Surroundings) (site : Name) : Bindings :=
  match around.inClass with
  | .none => b.note site .superOutsideClass
  | .plain => b.note site .superWithoutSuperclass
  | .derived => b

/-- A reference to a variable. -/
def Bindings.read (b : Bindings) (around : Surroundings) (name : Name) (id : Nat) : Bindings :=
  (b.noteIf (b.isUnready name.text) name .ownInitializer).refer around id name.text

mutual

/-- Binds the references of an expression, from left to right; the value of an assignment comes
    before its target (`resolve_expr`). -/
def Expr.bindNames (around : Surroundings) : Expr → Bindings → Bindings
  | .literal _, b => b
  | .grouping inner, b => inner.bindNames around b
  | .unary _ _ operand, b => operand.bindNames around b
  | .binary _ _ left right, b => right.bindNames around (left.bindNames around b)
  | .logical _ _ left right, b => right.bindNames around (left.bindNames around b)
  | .variable name id, b => b.read around name id
  | .assign name id value, b => (value.bindNames around b).refer around id name.text
  | .call callee _ args, b => bindArguments around args (callee.bindNames around b)
  | .get object _, b => object.bindNames around b
  | .set object _ value, b => value.bindNames around (object.bindNames around b)
  | .this line id, b =>
    (b.noteIf (around.inClass = .none) ⟨"this", line⟩ .thisOutsideClass).refer around id "this"
  | .super line id _, b => (b.checkSuper around ⟨"super", line⟩).refer around id "super"

/-- Binds the references of arguments. -/
def bindArguments (around : Surroundings) : List Expr → Bindings → Bindings
  | [], b => b
  | argument :: args, b => bindArguments around args (argument.bindNames around b)

end

/-- Binds the references of an expression that may be missing. -/
def bindOptional (around : Surroundings) (value : Option Expr) (b : Bindings) : Bindings :=
  match value with
  | some value => value.bindNames around b
  | none => b

/-! ### The walk over statements -/

/-- Declares the parameters of a function, which are ready at once. -/
def Bindings.parameters (b : Bindings) (params : List Name) : Bindings :=
  params.foldl (fun b param => (b.declare param).define param) b

/-- The rules for `return`: it stands in a function, and not with a value in an initializer. -/
def Bindings.checkReturn (b : Bindings) (around : Surroundings) (line : Nat) (hasValue : Bool) :
    Bindings :=
  (b.noteIf (around.inFunction = .none) ⟨"return", line⟩ .topLevelReturn).noteIf
    (hasValue && around.inFunction = .initializer) ⟨"return", line⟩ .initializerReturn

/-- A class name and its superclass: the name is ready at once, and is not its own superclass.
    With the scopes around the methods this is `resolve_class`. -/
def Bindings.classHead (b : Bindings) (around : Surroundings) (name : Name)
    (superclass : Option Reference) : Bindings :=
  let b := (b.declare name).define name
  match superclass with
  | none => b
  | some superclass =>
    let b := b.noteIf (superclass.name.text == name.text) superclass.name .selfInheritance
    (b.read around superclass.name superclass.id).enter.put "super" .defined

mutual

/-- Binds the references of a statement (`resolve_stmt`). -/
def Stmt.bindNames (around : Surroundings) : Stmt → Bindings → Bindings
  | .expression value, b => value.bindNames around b
  | .print value, b => value.bindNames around b
  | .var name initializer, b =>
    (bindOptional around initializer (b.declare name)).define name
  | .block body, b => (bindStatements around body b.enter).leave
  | .ifElse condition thenBranch none, b => thenBranch.bindNames around (condition.bindNames around b)
  | .ifElse condition thenBranch (some elseBranch), b =>
    elseBranch.bindNames around (thenBranch.bindNames around (condition.bindNames around b))
  | .whileLoop condition body, b => body.bindNames around (condition.bindNames around b)
  | .function declaration, b =>
    declaration.bindNames { around with inFunction := .function }
      ((b.declare declaration.name).define declaration.name)
  | .return line value, b =>
    bindOptional around value (b.checkReturn around line value.isSome)
  | .class name superclass methods, b =>
    let kind := if superclass.isSome then ClassContext.derived else .plain
    let b := (b.classHead { around with inClass := kind } name superclass).enter.put "this" .defined
    let b := (bindMethods { around with inClass := kind } methods b).leave
    if superclass.isSome then b.leave else b

/-- Binds the references of a function, whose parameters and body are one scope
    (`resolve_function`). -/
def FunctionDecl.bindNames (around : Surroundings) : FunctionDecl → Bindings → Bindings
  | ⟨_, params, body⟩, b => (bindStatements around body (b.enter.parameters params)).leave

/-- Binds the references of a list of statements. -/
def bindStatements (around : Surroundings) : List Stmt → Bindings → Bindings
  | [], b => b
  | statement :: rest, b => bindStatements around rest (statement.bindNames around b)

/-- Binds the references of the methods of a class. -/
def bindMethods (around : Surroundings) : List FunctionDecl → Bindings → Bindings
  | [], b => b
  | method :: rest, b =>
    bindMethods around rest
      (method.bindNames { around with inFunction := method.methodContext } b)

end

/-- What the references of a program mean (`Resolver::resolve`). -/
def Program.bindings (program : Program) : Bindings :=
  bindStatements .topLevel program .empty

/-- What the references of a single expression mean (`resolve_expression`). -/
def Expr.bindings (e : Expr) : Bindings :=
  e.bindNames .topLevel .empty

end Treewalk
