import Mathlib.Data.List.Nodup
import Treewalk.Proofs.Binding.Walk

/-!
# What a program mentions

**Of every assignment it can be said whether it stands in the initializer of its own variable, and of
every `super` in which class it stands.**  Both can be read off the source.  So can the names that
a program declares, scope by scope; names of properties and methods are not among them.
-/

namespace Treewalk

/-- A class declaration, as it stands in the source. -/
structure ClassDecl where
  name : Name
  superclass : Option Reference
  methods : List FunctionDecl

/-- An assignment with the variable in whose initializer it stands, or a `super` with the innermost
    class around it. -/
inductive Mention where
  | assign (initialized : Option String) (text : String) (id : Nat)
  | super (within : Option ClassDecl) (id : Nat)

mutual

/-- The assignments and the places of `super` in an expression. -/
def Expr.mentions (within : Option ClassDecl) (initialized : Option String) : Expr → List Mention
  | .literal _ => []
  | .grouping inner => inner.mentions within initialized
  | .unary _ _ operand => operand.mentions within initialized
  | .binary _ _ left right => left.mentions within initialized ++ right.mentions within initialized
  | .logical _ _ left right => left.mentions within initialized ++ right.mentions within initialized
  | .variable _ _ => []
  | .assign name id value =>
    value.mentions within initialized ++ [.assign initialized name.text id]
  | .call callee _ args =>
    callee.mentions within initialized ++ argumentMentions within initialized args
  | .get object _ => object.mentions within initialized
  | .set object _ value => object.mentions within initialized ++ value.mentions within initialized
  | .this _ _ => []
  | .super _ id _ => [.super within id]

def argumentMentions (within : Option ClassDecl) (initialized : Option String) :
    List Expr → List Mention
  | [] => []
  | argument :: args =>
    argument.mentions within initialized ++ argumentMentions within initialized args

end

/-- The same for an expression that may be missing. -/
def optionalMentions (within : Option ClassDecl) (initialized : Option String) :
    Option Expr → List Mention
  | some value => value.mentions within initialized
  | none => []

mutual

/-- The assignments and the places of `super` in a statement. -/
def Stmt.mentions (within : Option ClassDecl) : Stmt → List Mention
  | .expression value => value.mentions within none
  | .print value => value.mentions within none
  | .var name initializer => optionalMentions within (some name.text) initializer
  | .block body => statementMentions within body
  | .ifElse condition thenBranch none =>
    condition.mentions within none ++ thenBranch.mentions within
  | .ifElse condition thenBranch (some elseBranch) =>
    condition.mentions within none ++ (thenBranch.mentions within ++ elseBranch.mentions within)
  | .whileLoop condition body => condition.mentions within none ++ body.mentions within
  | .function declaration => declaration.mentions within
  | .return _ value => optionalMentions within none value
  | .class name superclass methods => methodMentions (some ⟨name, superclass, methods⟩) methods

def FunctionDecl.mentions (within : Option ClassDecl) : FunctionDecl → List Mention
  | ⟨_, _, body⟩ => statementMentions within body

def statementMentions (within : Option ClassDecl) : List Stmt → List Mention
  | [] => []
  | s :: rest => s.mentions within ++ statementMentions within rest

def methodMentions (within : Option ClassDecl) : List FunctionDecl → List Mention
  | [] => []
  | method :: rest => method.mentions within ++ methodMentions within rest

end

/-- All assignments and all places of `super` in a program. -/
def Program.mentions (program : Program) : List Mention :=
  statementMentions none program

/-- The assignment stands in the initializer of the variable that it names. -/
def Program.AssignsInOwnInitializer (program : Program) (id : Nat) : Prop :=
  ∃ text, .assign (some text) text id ∈ program.mentions

/-- The reference through `super` stands in a method of the class, and in no class inside it. -/
def Program.MentionsSuperIn (program : Program) (declaration : ClassDecl) (id : Nat) : Prop :=
  .super (some declaration) id ∈ program.mentions

theorem methodMentions_subset {within : Option ClassDecl} {method : FunctionDecl}
    {methods : List FunctionDecl} (h : method ∈ methods) :
    method.mentions within ⊆ methodMentions within methods := by
  induction methods with
  | nil => cases h
  | cons first rest ih =>
    rw [methodMentions]
    rcases List.mem_cons.mp h with rfl | hrest
    · exact List.subset_append_left _ _
    · exact List.Subset.trans (ih hrest) (List.subset_append_right _ _)

/-- What is mentioned stands in this initializer, or in this class. -/
def Mention.StandsIn (within : Option ClassDecl) (initialized : Option String) : Mention → Prop
  | .assign found _ _ => found = initialized
  | .super found _ => found = within

mutual

/-- All that an expression mentions stands where the expression stands. -/
theorem Expr.standsIn_of_mentions {within : Option ClassDecl} {initialized : Option String}
    {mention : Mention} : ∀ e : Expr,
    mention ∈ e.mentions within initialized → mention.StandsIn within initialized
  | .literal _, h => by cases h
  | .grouping inner, h => inner.standsIn_of_mentions h
  | .unary _ _ operand, h => operand.standsIn_of_mentions h
  | .binary _ _ left right, h =>
    (List.mem_append.mp h).elim left.standsIn_of_mentions right.standsIn_of_mentions
  | .logical _ _ left right, h =>
    (List.mem_append.mp h).elim left.standsIn_of_mentions right.standsIn_of_mentions
  | .variable _ _, h => by cases h
  | .assign _ _ value, h => by
    rcases List.mem_append.mp h with hvalue | hself
    · exact value.standsIn_of_mentions hvalue
    · rw [List.mem_singleton.mp hself]
      rfl
  | .call callee _ args, h =>
    (List.mem_append.mp h).elim callee.standsIn_of_mentions (standsIn_of_argumentMentions args)
  | .get object _, h => object.standsIn_of_mentions h
  | .set object _ value, h =>
    (List.mem_append.mp h).elim object.standsIn_of_mentions value.standsIn_of_mentions
  | .this _ _, h => by cases h
  | .super _ _ _, h => by
    rw [List.mem_singleton.mp h]
    rfl

theorem standsIn_of_argumentMentions {within : Option ClassDecl} {initialized : Option String}
    {mention : Mention} : ∀ args : List Expr,
    mention ∈ argumentMentions within initialized args → mention.StandsIn within initialized
  | [], h => by cases h
  | argument :: args, h =>
    (List.mem_append.mp h).elim argument.standsIn_of_mentions (standsIn_of_argumentMentions args)

end

/-! ### Each reference is mentioned once -/

/-- The number of the reference that is mentioned. -/
def Mention.id : Mention → Nat
  | .assign _ _ id => id
  | .super _ id => id

mutual

theorem Expr.mentions_sublist (within : Option ClassDecl) (initialized : Option String) :
    ∀ e : Expr, ((e.mentions within initialized).map Mention.id).Sublist e.references
  | .literal _ => .slnil
  | .grouping inner => inner.mentions_sublist within initialized
  | .unary _ _ operand => operand.mentions_sublist within initialized
  | .binary _ _ left right => by
    rw [Expr.mentions, List.map_append]
    exact (left.mentions_sublist within initialized).append (right.mentions_sublist within initialized)
  | .logical _ _ left right => by
    rw [Expr.mentions, List.map_append]
    exact (left.mentions_sublist within initialized).append (right.mentions_sublist within initialized)
  | .variable _ _ => List.nil_sublist _
  | .assign _ id value => by
    rw [Expr.mentions, List.map_append]
    exact (value.mentions_sublist within initialized).append (List.Sublist.refl [id])
  | .call callee _ args => by
    rw [Expr.mentions, List.map_append]
    exact (callee.mentions_sublist within initialized).append
      (argumentMentions_sublist within initialized args)
  | .get object _ => object.mentions_sublist within initialized
  | .set object _ value => by
    rw [Expr.mentions, List.map_append]
    exact (object.mentions_sublist within initialized).append
      (value.mentions_sublist within initialized)
  | .this _ _ => List.nil_sublist _
  | .super _ id _ => List.Sublist.refl [id]

theorem argumentMentions_sublist (within : Option ClassDecl) (initialized : Option String) :
    ∀ args : List Expr,
      ((argumentMentions within initialized args).map Mention.id).Sublist (argumentReferences args)
  | [] => .slnil
  | argument :: args => by
    rw [argumentMentions, List.map_append]
    exact (argument.mentions_sublist within initialized).append
      (argumentMentions_sublist within initialized args)

end

theorem optionalMentions_sublist (within : Option ClassDecl) (initialized : Option String)
    (value : Option Expr) :
    ((optionalMentions within initialized value).map Mention.id).Sublist (optionalReferences value) := by
  rcases value with _ | value
  · exact .slnil
  · exact value.mentions_sublist within initialized

mutual

theorem Stmt.mentions_sublist (within : Option ClassDecl) :
    ∀ s : Stmt, ((s.mentions within).map Mention.id).Sublist s.references
  | .expression value => value.mentions_sublist within none
  | .print value => value.mentions_sublist within none
  | .var name initializer => optionalMentions_sublist within (some name.text) initializer
  | .block body => statementMentions_sublist within body
  | .ifElse condition thenBranch none => by
    rw [Stmt.mentions, List.map_append]
    exact (condition.mentions_sublist within none).append (thenBranch.mentions_sublist within)
  | .ifElse condition thenBranch (some elseBranch) => by
    rw [Stmt.mentions, List.map_append, List.map_append]
    exact (condition.mentions_sublist within none).append
      ((thenBranch.mentions_sublist within).append (elseBranch.mentions_sublist within))
  | .whileLoop condition body => by
    rw [Stmt.mentions, List.map_append]
    exact (condition.mentions_sublist within none).append (body.mentions_sublist within)
  | .function declaration => declaration.mentions_sublist within
  | .return _ value => optionalMentions_sublist within none value
  | .class name superclass methods =>
    (methodMentions_sublist (some ⟨name, superclass, methods⟩) methods).trans
      (List.sublist_append_right _ _)

theorem FunctionDecl.mentions_sublist (within : Option ClassDecl) :
    ∀ f : FunctionDecl, ((f.mentions within).map Mention.id).Sublist f.references
  | ⟨_, _, body⟩ => statementMentions_sublist within body

theorem statementMentions_sublist (within : Option ClassDecl) : ∀ body : List Stmt,
    ((statementMentions within body).map Mention.id).Sublist (statementReferences body)
  | [] => .slnil
  | s :: rest => by
    rw [statementMentions, List.map_append]
    exact (s.mentions_sublist within).append (statementMentions_sublist within rest)

theorem methodMentions_sublist (within : Option ClassDecl) : ∀ methods : List FunctionDecl,
    ((methodMentions within methods).map Mention.id).Sublist (methodReferences methods)
  | [] => .slnil
  | method :: rest => by
    rw [methodMentions, List.map_append]
    exact (method.mentions_sublist within).append (methodMentions_sublist within rest)

end

/-! ### Declared names -/

/-- The names that statements declare in the scope that they stand in. -/
def ownNames (body : List Stmt) : List String :=
  body.filterMap Stmt.declaredName

mutual

/-- The names that a statement declares in scopes of its own. -/
def Stmt.innerNames : Stmt → List String
  | .block body => ownNames body ++ statementInnerNames body
  | .ifElse _ thenBranch none => thenBranch.innerNames
  | .ifElse _ thenBranch (some elseBranch) => thenBranch.innerNames ++ elseBranch.innerNames
  | .whileLoop _ body => body.innerNames
  | .function declaration => declaration.innerNames
  | .class _ _ methods => methodInnerNames methods
  | _ => []

/-- The parameters of a function are declared in one scope with its body. -/
def FunctionDecl.innerNames : FunctionDecl → List String
  | ⟨_, params, body⟩ => params.map Name.text ++ ownNames body ++ statementInnerNames body

def statementInnerNames : List Stmt → List String
  | [] => []
  | s :: rest => s.innerNames ++ statementInnerNames rest

def methodInnerNames : List FunctionDecl → List String
  | [] => []
  | method :: rest => method.innerNames ++ methodInnerNames rest

end

/-- All names that a program declares: variables, parameters, functions and classes, global or
    not. -/
def Program.declaredNames (program : Program) : List String :=
  ownNames program ++ statementInnerNames program

theorem methodInnerNames_sublist {method : FunctionDecl} {methods : List FunctionDecl}
    (h : method ∈ methods) : method.innerNames.Sublist (methodInnerNames methods) := by
  induction methods with
  | nil => cases h
  | cons first rest ih =>
    rw [methodInnerNames]
    rcases List.mem_cons.mp h with rfl | hrest
    · exact List.sublist_append_left _ _
    · exact (ih hrest).trans (List.sublist_append_right _ _)

theorem mem_ownNames {body : List Stmt} {s : Stmt} {text : String} (hs : s ∈ body)
    (htext : s.declaredName = some text) : text ∈ ownNames body :=
  List.mem_filterMap.mpr ⟨s, hs, htext⟩

end Treewalk
