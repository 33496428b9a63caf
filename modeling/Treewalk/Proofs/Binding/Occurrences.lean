import Mathlib.Data.List.Forall2
import Treewalk.Proofs.Binding.Placement

/-!
# Places in a program

**What a name means and which rules it breaks depends on its place alone: on what was opened and
what was declared in front of it.**  Here every declaration, reference and `return` of a program
is listed with its place, without any walk that keeps a state.  The hop counts and the errors
that the walk collects are then read off the list.

A place is given by the path that leads to it from the top level.  The path says everything: the
scopes and the names in them, the innermost function and the innermost class.
-/

namespace Treewalk

/-! ### Paths -/

/-- A step on the way to a place. -/
inductive Entry where
  /-- A block was opened. -/
  | block
  /-- A function was opened, which is a method if it has this name as one. -/
  | function (method : Option String)
  /-- A class was opened, which has a superclass or has none. -/
  | class (derived : Bool)
  /-- A name was declared. -/
  | declared (text : String)
  /-- A variable was declared, and its initializer is being read. -/
  | initializer (text : String)
deriving DecidableEq, Repr

/-- The way to a place, its last step first. -/
abbrev Path := List Entry

/-- A further name in the innermost scope; at the top level there is none. -/
def addName (text : String) : List (List String) → List (List String)
  | [] => []
  | names :: outer => (text :: names) :: outer

theorem exists_mem_addName {scopes : List (List String)} {names : List String} {text : String}
    (hnames : names ∈ scopes) (htext : text ∈ names) (other : String) :
    ∃ names ∈ addName other scopes, text ∈ names := by
  rcases scopes with _ | ⟨inner, outer⟩
  · cases hnames
  · rcases List.mem_cons.mp hnames with rfl | houter
    · exact ⟨other :: names, List.mem_cons_self, List.mem_cons_of_mem _ htext⟩
    · exact ⟨names, List.mem_cons_of_mem _ houter, htext⟩

theorem exists_mem_addName_self {scopes : List (List String)} (h : scopes ≠ []) (text : String) :
    ∃ names ∈ addName text scopes, text ∈ names := by
  obtain ⟨names, outer, rfl⟩ := List.exists_cons_of_ne_nil h
  exact ⟨text :: names, List.mem_cons_self, List.mem_cons_self⟩

namespace Path

/-- The scopes around a place, the innermost first, each with the names declared in it so far.
    Parameters and body of a function are one scope.  A class has a scope for `this`, and one for
    `super` around it if it has a superclass. -/
def scopes : Path → List (List String)
  | [] => []
  | .block :: around => [] :: scopes around
  | .function _ :: around => [] :: scopes around
  | .class true :: around => ["this"] :: ["super"] :: scopes around
  | .class false :: around => ["this"] :: scopes around
  | .declared text :: around => addName text (scopes around)
  | .initializer text :: around => addName text (scopes around)

/-- The innermost function, if there is one: the name of a method, or none for other
    functions. -/
def function? : Path → Option (Option String)
  | [] => none
  | .function method :: _ => some method
  | _ :: around => function? around

/-- The innermost class, if there is one: does it have a superclass? -/
def class? : Path → Option Bool
  | [] => none
  | .class derived :: _ => some derived
  | _ :: around => class? around

/-- The names that are declared in the innermost scope already. -/
def taken (around : Path) : List String :=
  around.scopes.headD []

/-- Is this variable, declared in a scope, being initialized? -/
def initializes : Path → String → Bool
  | .initializer name :: around, text => name == text && !(scopes around).isEmpty
  | _, _ => false

/-- A scope around the place holds the name. -/
def Sees (around : Path) (text : String) : Prop :=
  ∃ names ∈ around.scopes, text ∈ names

/-- The innermost scope that holds the name lies this many scopes outward. -/
def SeesAt (around : Path) (text : String) (hops : Nat) : Prop :=
  (∃ names, around.scopes[hops]? = some names ∧ text ∈ names)
    ∧ ∀ inner < hops, ∀ names, around.scopes[inner]? = some names → text ∉ names

/-- The path behind these parameters. -/
def behindParams (around : Path) (params : List Name) : Path :=
  params.foldl (fun around param => .declared param.text :: around) around

/-- The path behind a statement. -/
def behind (around : Path) (s : Stmt) : Path :=
  match s.declaredName with
  | some text => .declared text :: around
  | none => around

end Path

/-! ### Places -/

/-- What can stand at a place and have a meaning or break a rule there. -/
inductive Item where
  | declaration (name : Name)
  | variable (name : Name) (id : Nat)
  | assignment (name : Name) (id : Nat)
  | this (line : Nat) (id : Nat)
  | super (line : Nat) (id : Nat)
  | return (line : Nat) (hasValue : Bool)
  /-- The superclass that a class names. -/
  | inheritance (name superclass : Name)
deriving DecidableEq, Repr

/-- Something in a program, and the way to it. -/
structure Occurrence where
  what : Item
  around : Path
deriving DecidableEq, Repr

/-- The number and the name of a reference. -/
def Item.reference? : Item → Option (Nat × String)
  | .variable name id => some (id, name.text)
  | .assignment name id => some (id, name.text)
  | .this _ id => some (id, "this")
  | .super _ id => some (id, "super")
  | _ => none

/-- The number of a reference. -/
def Occurrence.id? (o : Occurrence) : Option Nat :=
  o.what.reference?.map Prod.fst

/-- The rule that is broken at a place, if one is. -/
def Occurrence.error? : Occurrence → Option BindingError
  | ⟨.declaration name, around⟩ =>
    if name.text ∈ around.taken then some ⟨name, .alreadyDeclared⟩ else none
  | ⟨.variable name _, around⟩ =>
    if around.initializes name.text then some ⟨name, .ownInitializer⟩ else none
  | ⟨.assignment _ _, _⟩ => none
  | ⟨.this line _, around⟩ =>
    match around.class? with
    | none => some ⟨⟨"this", line⟩, .thisOutsideClass⟩
    | some _ => none
  | ⟨.super line _, around⟩ =>
    match around.class? with
    | none => some ⟨⟨"super", line⟩, .superOutsideClass⟩
    | some false => some ⟨⟨"super", line⟩, .superWithoutSuperclass⟩
    | some true => none
  | ⟨.return line hasValue, around⟩ =>
    match around.function? with
    | none => some ⟨⟨"return", line⟩, .topLevelReturn⟩
    | some method =>
      if hasValue ∧ method = some initializerName then
        some ⟨⟨"return", line⟩, .initializerReturn⟩
      else
        none
  | ⟨.inheritance name superclass, _⟩ =>
    if superclass.text = name.text then some ⟨superclass, .selfInheritance⟩ else none

mutual

/-- The places in an expression, in the order in which they are bound. -/
def Expr.occurrences (around : Path) : Expr → List Occurrence
  | .literal _ => []
  | .grouping inner => inner.occurrences around
  | .unary _ _ operand => operand.occurrences around
  | .binary _ _ left right => left.occurrences around ++ right.occurrences around
  | .logical _ _ left right => left.occurrences around ++ right.occurrences around
  | .variable name id => [⟨.variable name id, around⟩]
  | .assign name id value => value.occurrences around ++ [⟨.assignment name id, around⟩]
  | .call callee _ args => callee.occurrences around ++ argumentOccurrences around args
  | .get object _ => object.occurrences around
  | .set object _ value => object.occurrences around ++ value.occurrences around
  | .this line id => [⟨.this line id, around⟩]
  | .super line id _ => [⟨.super line id, around⟩]

/-- The places in arguments. -/
def argumentOccurrences (around : Path) : List Expr → List Occurrence
  | [] => []
  | argument :: args => argument.occurrences around ++ argumentOccurrences around args

end

/-- The places in an expression that may be missing. -/
def optionalOccurrences (around : Path) : Option Expr → List Occurrence
  | some value => value.occurrences around
  | none => []

/-- The places in the superclass of a class, if it has one. -/
def superclassOccurrences (around : Path) (name : Name) : Option Reference → List Occurrence
  | some superclass =>
    [⟨.inheritance name superclass.name, around⟩,
      ⟨.variable superclass.name superclass.id, around⟩]
  | none => []

/-- Parameters are declared one after the other. -/
def parameterOccurrences (around : Path) : List Name → List Occurrence
  | [] => []
  | param :: params =>
    ⟨.declaration param, around⟩ :: parameterOccurrences (.declared param.text :: around) params

mutual

/-- The places in a statement.  A function or class is declared in front of its own body, and a
    class in front of its superclass. -/
def Stmt.occurrences (around : Path) : Stmt → List Occurrence
  | .expression value => value.occurrences around
  | .print value => value.occurrences around
  | .var name initializer =>
    ⟨.declaration name, around⟩
      :: optionalOccurrences (.initializer name.text :: around) initializer
  | .block body => statementOccurrences (.block :: around) body
  | .ifElse condition thenBranch none =>
    condition.occurrences around ++ thenBranch.occurrences around
  | .ifElse condition thenBranch (some elseBranch) =>
    condition.occurrences around ++ (thenBranch.occurrences around ++ elseBranch.occurrences around)
  | .whileLoop condition body => condition.occurrences around ++ body.occurrences around
  | .function declaration =>
    ⟨.declaration declaration.name, around⟩
      :: declaration.occurrences none (.declared declaration.name.text :: around)
  | .return line value => ⟨.return line value.isSome, around⟩ :: optionalOccurrences around value
  | .class name superclass methods =>
    ⟨.declaration name, around⟩
      :: (superclassOccurrences (.declared name.text :: around) name superclass
        ++ methodOccurrences (.class superclass.isSome :: .declared name.text :: around) methods)

/-- The places in a function, which is a method if it has this name as one. -/
def FunctionDecl.occurrences (method : Option String) (around : Path) :
    FunctionDecl → List Occurrence
  | ⟨_, params, body⟩ =>
    parameterOccurrences (.function method :: around) params
      ++ statementOccurrences (Path.behindParams (.function method :: around) params) body

/-- The places in a list of statements, each of which declares its name for the rest. -/
def statementOccurrences (around : Path) : List Stmt → List Occurrence
  | [] => []
  | s :: rest => s.occurrences around ++ statementOccurrences (Path.behind around s) rest

/-- The places in the methods of a class. -/
def methodOccurrences (around : Path) : List FunctionDecl → List Occurrence
  | [] => []
  | method :: rest =>
    method.occurrences (some method.name.text) around ++ methodOccurrences around rest

end

/-- The places in a program. -/
def Program.occurrences (program : Program) : List Occurrence :=
  statementOccurrences [] program

/-! ### References and their places -/

mutual

theorem Expr.ids_occurrences (around : Path) : ∀ e : Expr,
    (e.occurrences around).filterMap Occurrence.id? = e.references
  | .literal _ => rfl
  | .grouping inner => inner.ids_occurrences around
  | .unary _ _ operand => operand.ids_occurrences around
  | .binary _ _ left right => by
    rw [Expr.occurrences, List.filterMap_append, left.ids_occurrences, right.ids_occurrences,
      Expr.references]
  | .logical _ _ left right => by
    rw [Expr.occurrences, List.filterMap_append, left.ids_occurrences, right.ids_occurrences,
      Expr.references]
  | .variable _ _ => rfl
  | .assign _ _ value => by
    rw [Expr.occurrences, List.filterMap_append, value.ids_occurrences, Expr.references]
    rfl
  | .call callee _ args => by
    rw [Expr.occurrences, List.filterMap_append, callee.ids_occurrences,
      ids_argumentOccurrences around args, Expr.references]
  | .get object _ => object.ids_occurrences around
  | .set object _ value => by
    rw [Expr.occurrences, List.filterMap_append, object.ids_occurrences, value.ids_occurrences,
      Expr.references]
  | .this _ _ => rfl
  | .super _ _ _ => rfl

theorem ids_argumentOccurrences (around : Path) : ∀ args : List Expr,
    (argumentOccurrences around args).filterMap Occurrence.id? = argumentReferences args
  | [] => rfl
  | argument :: args => by
    rw [argumentOccurrences, List.filterMap_append, argument.ids_occurrences,
      ids_argumentOccurrences around args, argumentReferences]

end

theorem ids_optionalOccurrences (around : Path) (value : Option Expr) :
    (optionalOccurrences around value).filterMap Occurrence.id? = optionalReferences value := by
  rcases value with _ | value
  · rfl
  · exact value.ids_occurrences around

theorem ids_superclassOccurrences (around : Path) (name : Name) (superclass : Option Reference) :
    (superclassOccurrences around name superclass).filterMap Occurrence.id?
      = superclassReferences superclass := by
  rcases superclass with _ | superclass <;> rfl

theorem ids_parameterOccurrences (around : Path) (params : List Name) :
    (parameterOccurrences around params).filterMap Occurrence.id? = [] := by
  induction params generalizing around with
  | nil => rfl
  | cons param params ih => exact ih (.declared param.text :: around)

mutual

theorem Stmt.ids_occurrences (around : Path) : ∀ s : Stmt,
    (s.occurrences around).filterMap Occurrence.id? = s.references
  | .expression value => value.ids_occurrences around
  | .print value => value.ids_occurrences around
  | .var _ initializer => ids_optionalOccurrences _ initializer
  | .block body => ids_statementOccurrences _ body
  | .ifElse condition thenBranch none => by
    rw [Stmt.occurrences, List.filterMap_append, condition.ids_occurrences,
      thenBranch.ids_occurrences, Stmt.references]
  | .ifElse condition thenBranch (some elseBranch) => by
    rw [Stmt.occurrences, List.filterMap_append, List.filterMap_append, condition.ids_occurrences,
      thenBranch.ids_occurrences, elseBranch.ids_occurrences, Stmt.references]
  | .whileLoop condition body => by
    rw [Stmt.occurrences, List.filterMap_append, condition.ids_occurrences, body.ids_occurrences,
      Stmt.references]
  | .function declaration => declaration.ids_occurrences none _
  | .return _ value => ids_optionalOccurrences around value
  | .class name superclass methods => by
    rw [Stmt.occurrences, List.filterMap_cons_none rfl, List.filterMap_append,
      ids_superclassOccurrences, ids_methodOccurrences _ methods, Stmt.references]

theorem FunctionDecl.ids_occurrences (method : Option String) (around : Path) :
    ∀ f : FunctionDecl, (f.occurrences method around).filterMap Occurrence.id? = f.references
  | ⟨_, params, body⟩ => by
    rw [FunctionDecl.occurrences, List.filterMap_append, ids_parameterOccurrences,
      ids_statementOccurrences _ body, FunctionDecl.references, List.nil_append]

theorem ids_statementOccurrences (around : Path) : ∀ body : List Stmt,
    (statementOccurrences around body).filterMap Occurrence.id? = statementReferences body
  | [] => rfl
  | s :: rest => by
    rw [statementOccurrences, List.filterMap_append, s.ids_occurrences,
      ids_statementOccurrences _ rest, statementReferences]

theorem ids_methodOccurrences (around : Path) : ∀ methods : List FunctionDecl,
    (methodOccurrences around methods).filterMap Occurrence.id? = methodReferences methods
  | [] => rfl
  | method :: rest => by
    rw [methodOccurrences, List.filterMap_append, method.ids_occurrences,
      ids_methodOccurrences _ rest, methodReferences]

end

/-! ### Paths into a tree

What lies in a tree has a path that goes through the place of the tree.  So a name that is seen
there is seen in the whole tree.
-/

/-- All these occurrences lie behind this place. -/
def LieBehind (around : Path) (occurrences : List Occurrence) : Prop :=
  ∀ o ∈ occurrences, around <:+ o.around

namespace LieBehind

variable {around outer : Path} {occurrences more : List Occurrence}

theorem nil (around : Path) : LieBehind around [] :=
  fun _ ho => absurd ho List.not_mem_nil

theorem cons (what : Item) (h : LieBehind around occurrences) :
    LieBehind around (⟨what, around⟩ :: occurrences) := by
  intro o ho
  rcases List.mem_cons.mp ho with rfl | hrest
  · exact List.suffix_refl around
  · exact h o hrest

theorem append (h : LieBehind around occurrences) (hmore : LieBehind around more) :
    LieBehind around (occurrences ++ more) := fun o ho =>
  (List.mem_append.mp ho).elim (h o) (hmore o)

theorem outward (h : LieBehind around occurrences) (houter : outer <:+ around) :
    LieBehind outer occurrences := fun o ho => houter.trans (h o ho)

end LieBehind

mutual

theorem Expr.lieBehind_occurrences (around : Path) : ∀ e : Expr,
    LieBehind around (e.occurrences around)
  | .literal _ => .nil around
  | .grouping inner => inner.lieBehind_occurrences around
  | .unary _ _ operand => operand.lieBehind_occurrences around
  | .binary _ _ left right =>
    (left.lieBehind_occurrences around).append (right.lieBehind_occurrences around)
  | .logical _ _ left right =>
    (left.lieBehind_occurrences around).append (right.lieBehind_occurrences around)
  | .variable _ _ => .cons _ (.nil around)
  | .assign _ _ value => (value.lieBehind_occurrences around).append (.cons _ (.nil around))
  | .call callee _ args =>
    (callee.lieBehind_occurrences around).append (lieBehind_argumentOccurrences around args)
  | .get object _ => object.lieBehind_occurrences around
  | .set object _ value =>
    (object.lieBehind_occurrences around).append (value.lieBehind_occurrences around)
  | .this _ _ => .cons _ (.nil around)
  | .super _ _ _ => .cons _ (.nil around)

theorem lieBehind_argumentOccurrences (around : Path) : ∀ args : List Expr,
    LieBehind around (argumentOccurrences around args)
  | [] => .nil around
  | argument :: args =>
    (argument.lieBehind_occurrences around).append (lieBehind_argumentOccurrences around args)

end

theorem lieBehind_optionalOccurrences (around : Path) (value : Option Expr) :
    LieBehind around (optionalOccurrences around value) := by
  rcases value with _ | value
  · exact .nil around
  · exact value.lieBehind_occurrences around

theorem lieBehind_superclassOccurrences (around : Path) (name : Name)
    (superclass : Option Reference) :
    LieBehind around (superclassOccurrences around name superclass) := by
  rcases superclass with _ | superclass
  · exact .nil around
  · exact .cons _ (.cons _ (.nil around))

theorem lieBehind_parameterOccurrences (around : Path) (params : List Name) :
    LieBehind around (parameterOccurrences around params) := by
  induction params generalizing around with
  | nil => exact .nil around
  | cons param params ih => exact .cons _ ((ih _).outward (List.suffix_cons _ around))

theorem Path.suffix_behindParams (around : Path) (params : List Name) :
    around <:+ around.behindParams params := by
  induction params generalizing around with
  | nil => exact List.suffix_refl around
  | cons param params ih => exact (List.suffix_cons _ around).trans (ih _)

theorem Path.suffix_behind (around : Path) (s : Stmt) : around <:+ around.behind s := by
  unfold Path.behind
  split
  · exact List.suffix_cons _ around
  · exact List.suffix_refl around

mutual

theorem Stmt.lieBehind_occurrences (around : Path) : ∀ s : Stmt,
    LieBehind around (s.occurrences around)
  | .expression value => value.lieBehind_occurrences around
  | .print value => value.lieBehind_occurrences around
  | .var _ initializer =>
    .cons _ ((lieBehind_optionalOccurrences _ initializer).outward (List.suffix_cons _ around))
  | .block body => (lieBehind_statementOccurrences _ body).outward (List.suffix_cons _ around)
  | .ifElse condition thenBranch none =>
    (condition.lieBehind_occurrences around).append (thenBranch.lieBehind_occurrences around)
  | .ifElse condition thenBranch (some elseBranch) =>
    (condition.lieBehind_occurrences around).append
      ((thenBranch.lieBehind_occurrences around).append (elseBranch.lieBehind_occurrences around))
  | .whileLoop condition body =>
    (condition.lieBehind_occurrences around).append (body.lieBehind_occurrences around)
  | .function declaration =>
    .cons _ ((declaration.lieBehind_occurrences none _).outward (List.suffix_cons _ around))
  | .return _ value => .cons _ (lieBehind_optionalOccurrences around value)
  | .class name superclass methods =>
    .cons _ (((lieBehind_superclassOccurrences _ name superclass).append
      ((lieBehind_methodOccurrences _ methods).outward (List.suffix_cons _ _))).outward
      (List.suffix_cons _ around))

theorem FunctionDecl.lieBehind_occurrences (method : Option String) (around : Path) :
    ∀ f : FunctionDecl, LieBehind around (f.occurrences method around)
  | ⟨_, params, body⟩ =>
    ((lieBehind_parameterOccurrences _ params).append
      ((lieBehind_statementOccurrences _ body).outward (Path.suffix_behindParams _ params))).outward
      (List.suffix_cons _ around)

theorem lieBehind_statementOccurrences (around : Path) : ∀ body : List Stmt,
    LieBehind around (statementOccurrences around body)
  | [] => .nil around
  | s :: rest =>
    (s.lieBehind_occurrences around).append
      ((lieBehind_statementOccurrences _ rest).outward (Path.suffix_behind around s))

theorem lieBehind_methodOccurrences (around : Path) : ∀ methods : List FunctionDecl,
    LieBehind around (methodOccurrences around methods)
  | [] => .nil around
  | method :: rest =>
    (method.lieBehind_occurrences _ around).append (lieBehind_methodOccurrences around rest)

end

/-- A name that is seen is still seen further inside. -/
theorem Path.Sees.inward {around inner : Path} {text : String} (h : around.Sees text)
    (hinner : around <:+ inner) : inner.Sees text := by
  obtain ⟨steps, rfl⟩ := hinner
  induction steps with
  | nil => exact h
  | cons entry steps ih =>
    obtain ⟨names, hnames, htext⟩ := ih
    rcases entry with _ | _ | (_ | _) | other | other
    · exact ⟨names, List.mem_cons_of_mem _ hnames, htext⟩
    · exact ⟨names, List.mem_cons_of_mem _ hnames, htext⟩
    · exact ⟨names, List.mem_cons_of_mem _ hnames, htext⟩
    · exact ⟨names, List.mem_cons_of_mem _ (List.mem_cons_of_mem _ hnames), htext⟩
    · exact exists_mem_addName hnames htext other
    · exact exists_mem_addName hnames htext other

/-- The references of a declaration see what the place of its parts sees. -/
theorem LieBehind.references_see {inner : Path} {occurrences : List Occurrence}
    (h : LieBehind inner occurrences) {text : String} (hsees : inner.Sees text) (name : Name)
    (around : Path) : ∀ o ∈ ⟨.declaration name, around⟩ :: occurrences, ∀ id, o.id? = some id →
      o.around.Sees text := by
  intro o ho id hid
  rcases List.mem_cons.mp ho with rfl | hrest
  · cases hid
  · exact hsees.inward (h o hrest)

/-- A function or class name is seen in its own body, a class name at its superclass, and a
    variable in its own initializer, unless they are global. -/
theorem Stmt.references_see {around : Path} (hscopes : around.scopes ≠ []) {s : Stmt}
    {text : String} (htext : s.declaredName = some text) :
    ∀ o ∈ s.occurrences around, ∀ id, o.id? = some id → o.around.Sees text := by
  have hdeclared : Path.Sees (.declared text :: around) text :=
    exists_mem_addName_self hscopes text
  have hinitialized : Path.Sees (.initializer text :: around) text :=
    exists_mem_addName_self hscopes text
  rcases s with _ | _ | ⟨name, initializer⟩ | _ | _ | _ | declaration | _ |
    ⟨name, superclass, methods⟩ <;> cases htext
  · exact (lieBehind_optionalOccurrences _ initializer).references_see hinitialized name around
  · exact (declaration.lieBehind_occurrences none _).references_see hdeclared declaration.name
      around
  · refine LieBehind.references_see ?_ hdeclared name around
    exact (lieBehind_superclassOccurrences _ name superclass).append
      ((lieBehind_methodOccurrences _ methods).outward (List.suffix_cons _ _))

/-! ### What the walk knows at a place -/

namespace Path

/-- What surrounds a place. -/
def surroundings (around : Path) : Surroundings where
  inFunction :=
    match around.function? with
    | none => .none
    | some none => .function
    | some (some method) => if method == initializerName then .initializer else .method
  inClass :=
    match around.class? with
    | none => .none
    | some false => .plain
    | some true => .derived

/-- The scopes of the walk at a place. -/
def tables : Path → List Scope
  | [] => []
  | .block :: around => ∅ :: tables around
  | .function _ :: around => ∅ :: tables around
  | .class derived :: around => methodScopes derived (tables around)
  | .declared text :: around => putName text .defined (tables around)
  | .initializer text :: around => putName text .declared (tables around)

end Path

/-- A scope of the walk holds these names. -/
def Scope.Holds (scope : Scope) (names : List String) : Prop :=
  ∀ text, text ∈ scope ↔ text ∈ names

theorem Scope.Holds.empty : Scope.Holds ∅ [] := fun text => by simp

theorem Scope.Holds.insert {scope : Scope} {names : List String} (h : scope.Holds names)
    (text : String) (standing : Standing) :
    Scope.Holds (Std.ExtTreeMap.insert scope text standing) (text :: names) := fun other => by
  rw [Std.ExtTreeMap.mem_insert, List.mem_cons, h other, Std.compare_eq_iff_eq, eq_comm]

/-- Scopes of the walk hold these names, one by one. -/
abbrev Hold : List Scope → List (List String) → Prop :=
  List.Forall₂ Scope.Holds

theorem Hold.putName {tables : List Scope} {scopes : List (List String)} (h : Hold tables scopes)
    (text : String) (standing : Standing) :
    Hold (putName text standing tables) (addName text scopes) := by
  cases h with
  | nil => exact .nil
  | cons hscope houter => exact .cons (hscope.insert text standing) houter

theorem Path.hold_tables (around : Path) : Hold around.tables around.scopes := by
  induction around with
  | nil => exact .nil
  | cons entry around ih =>
    have hword : ∀ word : String, Scope.Holds ((∅ : Scope).insert word .defined) [word] :=
      fun word => Scope.Holds.empty.insert word .defined
    rcases entry with _ | _ | (_ | _) | text | text
    · exact .cons .empty ih
    · exact .cons .empty ih
    · exact .cons (hword "this") ih
    · exact .cons (hword "this") (.cons (hword "super") ih)
    · exact ih.putName text .defined
    · exact ih.putName text .declared

theorem Hold.hopsIn_eq {tables : List Scope} {scopes : List (List String)} (h : Hold tables scopes)
    (text : String) : hopsIn tables text = scopes.findIdx? fun names => names.contains text := by
  induction h with
  | nil => rfl
  | @cons scope names outer rest hscope houter ih =>
    rw [List.findIdx?_cons]
    by_cases hmem : text ∈ names
    · rw [hopsIn_cons_of_mem ((hscope text).mpr hmem), if_pos (List.contains_iff_mem.mpr hmem)]
    · rw [hopsIn_cons_of_not_mem fun hin => hmem ((hscope text).mp hin), ih,
        if_neg fun hin => hmem (List.contains_iff_mem.mp hin)]

theorem Hold.innermost_iff {tables : List Scope} {scopes : List (List String)}
    (h : Hold tables scopes) (text : String) :
    (tables.head?.any fun scope => scope.contains text) = true ↔ text ∈ scopes.headD [] := by
  cases h with
  | nil => simp
  | cons hscope _ => exact Std.ExtTreeMap.contains_iff_mem.trans (hscope text)

theorem Hold.isEmpty_eq {tables : List Scope} {scopes : List (List String)}
    (h : Hold tables scopes) : tables.isEmpty = scopes.isEmpty := by
  cases h <;> rfl

end Treewalk
