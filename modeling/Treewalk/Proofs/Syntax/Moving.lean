import Treewalk.Proofs.Syntax.References

/-!
# Moving source text

**A source that is moved down its file keeps its tree, on other lines.**  A source that is read
later in a session keeps its tree as well, with other numbers for its references.  A shift says
how lines and numbers change; nothing else about a tree depends on where it stands.
-/

namespace Treewalk

/-- How lines, and the numbers of references, change. -/
structure Shift where
  line : Nat → Nat
  id : Nat → Nat

/-- Nothing changes. -/
abbrev Shift.same : Shift := ⟨fun line => line, fun id => id⟩

/-- Only lines change. -/
abbrev Shift.ofLines (f : Nat → Nat) : Shift := ⟨f, fun id => id⟩

def Name.move (σ : Shift) (name : Name) : Name := ⟨name.text, σ.line name.line⟩

def Reference.move (σ : Shift) (r : Reference) : Reference := ⟨r.name.move σ, σ.id r.id⟩

@[simp]
theorem Name.text_move (σ : Shift) (name : Name) : (name.move σ).text = name.text := rfl

@[simp]
theorem Name.line_move (σ : Shift) (name : Name) : (name.move σ).line = σ.line name.line := rfl

@[simp]
theorem Name.move_same (name : Name) : name.move .same = name := rfl

mutual

/-- An expression on other lines. -/
def Expr.move (σ : Shift) : Expr → Expr
  | .literal value => .literal value
  | .grouping inner => .grouping (inner.move σ)
  | .unary op line operand => .unary op (σ.line line) (operand.move σ)
  | .binary op line left right => .binary op (σ.line line) (left.move σ) (right.move σ)
  | .logical op line left right => .logical op (σ.line line) (left.move σ) (right.move σ)
  | .variable name id => .variable (name.move σ) (σ.id id)
  | .assign name id value => .assign (name.move σ) (σ.id id) (value.move σ)
  | .call callee line args => .call (callee.move σ) (σ.line line) (moveArguments σ args)
  | .get object name => .get (object.move σ) (name.move σ)
  | .set object name value => .set (object.move σ) (name.move σ) (value.move σ)
  | .this line id => .this (σ.line line) (σ.id id)
  | .super line id method => .super (σ.line line) (σ.id id) (method.move σ)

def moveArguments (σ : Shift) : List Expr → List Expr
  | [] => []
  | argument :: args => argument.move σ :: moveArguments σ args

end

mutual

/-- A statement on other lines. -/
def Stmt.move (σ : Shift) : Stmt → Stmt
  | .expression value => .expression (value.move σ)
  | .print value => .print (value.move σ)
  | .var name initializer => .var (name.move σ) (initializer.map (Expr.move σ))
  | .block body => .block (moveStatements σ body)
  | .ifElse condition thenBranch none => .ifElse (condition.move σ) (thenBranch.move σ) none
  | .ifElse condition thenBranch (some elseBranch) =>
    .ifElse (condition.move σ) (thenBranch.move σ) (some (elseBranch.move σ))
  | .whileLoop condition body => .whileLoop (condition.move σ) (body.move σ)
  | .function declaration => .function (declaration.move σ)
  | .return line value => .return (σ.line line) (value.map (Expr.move σ))
  | .class name superclass methods =>
    .class (name.move σ) (superclass.map (Reference.move σ)) (moveMethods σ methods)

def FunctionDecl.move (σ : Shift) : FunctionDecl → FunctionDecl
  | ⟨name, params, body⟩ => ⟨name.move σ, params.map (Name.move σ), moveStatements σ body⟩

def moveStatements (σ : Shift) : List Stmt → List Stmt
  | [] => []
  | s :: rest => s.move σ :: moveStatements σ rest

def moveMethods (σ : Shift) : List FunctionDecl → List FunctionDecl
  | [] => []
  | method :: rest => method.move σ :: moveMethods σ rest

end

/-! ### What does not change -/

theorem moveStatements_append (σ : Shift) (first rest : List Stmt) :
    moveStatements σ (first ++ rest) = moveStatements σ first ++ moveStatements σ rest := by
  induction first with
  | nil => rfl
  | cons s first ih => simp only [List.cons_append, moveStatements, ih]

@[simp]
theorem FunctionDecl.name_move (σ : Shift) (f : FunctionDecl) :
    (f.move σ).name = f.name.move σ := by
  cases f
  rw [FunctionDecl.move]

@[simp]
theorem FunctionDecl.isInitializer_move (σ : Shift) (f : FunctionDecl) :
    (f.move σ).isInitializer = f.isInitializer := by
  simp [FunctionDecl.isInitializer]

mutual

theorem Expr.move_same : ∀ e : Expr, e.move .same = e
  | .literal _ => rfl
  | .grouping inner => by rw [Expr.move, inner.move_same]
  | .unary _ _ operand => by rw [Expr.move, operand.move_same]
  | .binary _ _ left right => by rw [Expr.move, left.move_same, right.move_same]
  | .logical _ _ left right => by rw [Expr.move, left.move_same, right.move_same]
  | .variable _ _ => rfl
  | .assign _ _ value => by rw [Expr.move, value.move_same, Name.move_same]
  | .call callee _ args => by rw [Expr.move, callee.move_same, moveArguments_same args]
  | .get object _ => by rw [Expr.move, object.move_same, Name.move_same]
  | .set object _ value => by
    rw [Expr.move, object.move_same, value.move_same, Name.move_same]
  | .this _ _ => rfl
  | .super _ _ _ => rfl

theorem moveArguments_same : ∀ args : List Expr, moveArguments .same args = args
  | [] => rfl
  | argument :: args => by rw [moveArguments, argument.move_same, moveArguments_same args]

end

theorem moveOptional_same : ∀ value : Option Expr, value.map (Expr.move .same) = value
  | none => rfl
  | some value => by rw [Option.map_some, value.move_same]

theorem moveSuperclass_same : ∀ r : Option Reference, r.map (Reference.move .same) = r
  | none => rfl
  | some _ => rfl

theorem moveNames_same (names : List Name) : names.map (Name.move .same) = names :=
  List.map_id names

mutual

theorem Stmt.move_same : ∀ s : Stmt, s.move .same = s
  | .expression value => by rw [Stmt.move, value.move_same]
  | .print value => by rw [Stmt.move, value.move_same]
  | .var _ initializer => by rw [Stmt.move, moveOptional_same, Name.move_same]
  | .block body => by rw [Stmt.move, moveStatements_same body]
  | .ifElse condition thenBranch none => by
    rw [Stmt.move, condition.move_same, thenBranch.move_same]
  | .ifElse condition thenBranch (some elseBranch) => by
    rw [Stmt.move, condition.move_same, thenBranch.move_same, elseBranch.move_same]
  | .whileLoop condition body => by rw [Stmt.move, condition.move_same, body.move_same]
  | .function declaration => by rw [Stmt.move, declaration.move_same]
  | .return _ value => by rw [Stmt.move, moveOptional_same]
  | .class _ superclass methods => by
    rw [Stmt.move, moveSuperclass_same, moveMethods_same methods, Name.move_same]

theorem FunctionDecl.move_same : ∀ f : FunctionDecl, f.move .same = f
  | ⟨_, params, body⟩ => by
    rw [FunctionDecl.move, moveNames_same, moveStatements_same body, Name.move_same]

theorem moveStatements_same : ∀ body : List Stmt, moveStatements .same body = body
  | [] => rfl
  | s :: rest => by rw [moveStatements, s.move_same, moveStatements_same rest]

theorem moveMethods_same : ∀ methods : List FunctionDecl, moveMethods .same methods = methods
  | [] => rfl
  | method :: rest => by rw [moveMethods, method.move_same, moveMethods_same rest]

end

/-! ### The numbers of a moved tree -/

mutual

theorem Expr.references_move (σ : Shift) : ∀ e : Expr, (e.move σ).references = e.references.map σ.id
  | .literal _ => rfl
  | .grouping inner => inner.references_move σ
  | .unary _ _ operand => operand.references_move σ
  | .binary _ _ left right => by
    simp only [Expr.move, Expr.references, left.references_move σ, right.references_move σ,
      List.map_append]
  | .logical _ _ left right => by
    simp only [Expr.move, Expr.references, left.references_move σ, right.references_move σ,
      List.map_append]
  | .variable _ _ => rfl
  | .assign _ _ value => by
    simp only [Expr.move, Expr.references, value.references_move σ, List.map_append, List.map_cons,
      List.map_nil]
  | .call callee _ args => by
    simp only [Expr.move, Expr.references, callee.references_move σ,
      argumentReferences_move σ args, List.map_append]
  | .get object _ => object.references_move σ
  | .set object _ value => by
    simp only [Expr.move, Expr.references, object.references_move σ, value.references_move σ,
      List.map_append]
  | .this _ _ => rfl
  | .super _ _ _ => rfl

theorem argumentReferences_move (σ : Shift) : ∀ args : List Expr,
    argumentReferences (moveArguments σ args) = (argumentReferences args).map σ.id
  | [] => rfl
  | argument :: args => by
    simp only [moveArguments, argumentReferences, argument.references_move σ,
      argumentReferences_move σ args, List.map_append]

end

theorem optionalReferences_move (σ : Shift) (value : Option Expr) :
    optionalReferences (value.map (Expr.move σ)) = (optionalReferences value).map σ.id := by
  cases value with
  | none => rfl
  | some value => exact value.references_move σ

theorem superclassReferences_move (σ : Shift) (r : Option Reference) :
    superclassReferences (r.map (Reference.move σ)) = (superclassReferences r).map σ.id := by
  cases r <;> rfl

mutual

theorem Stmt.references_move (σ : Shift) : ∀ s : Stmt, (s.move σ).references = s.references.map σ.id
  | .expression value => value.references_move σ
  | .print value => value.references_move σ
  | .var _ initializer => optionalReferences_move σ initializer
  | .block body => by
    simp only [Stmt.move, Stmt.references, statementReferences_move σ body]
  | .ifElse condition thenBranch none => by
    simp only [Stmt.move, Stmt.references, condition.references_move σ,
      thenBranch.references_move σ, List.map_append]
  | .ifElse condition thenBranch (some elseBranch) => by
    simp only [Stmt.move, Stmt.references, condition.references_move σ,
      thenBranch.references_move σ, elseBranch.references_move σ, List.map_append]
  | .whileLoop condition body => by
    simp only [Stmt.move, Stmt.references, condition.references_move σ, body.references_move σ,
      List.map_append]
  | .function declaration => by
    simp only [Stmt.move, Stmt.references, declaration.references_move σ]
  | .return _ value => optionalReferences_move σ value
  | .class _ superclass methods => by
    simp only [Stmt.move, Stmt.references, superclassReferences_move, methodReferences_move σ methods,
      List.map_append]

theorem FunctionDecl.references_move (σ : Shift) : ∀ f : FunctionDecl,
    (f.move σ).references = f.references.map σ.id
  | ⟨_, _, body⟩ => by
    simp only [FunctionDecl.move, FunctionDecl.references, statementReferences_move σ body]

theorem statementReferences_move (σ : Shift) : ∀ body : List Stmt,
    statementReferences (moveStatements σ body) = (statementReferences body).map σ.id
  | [] => rfl
  | s :: rest => by
    simp only [moveStatements, statementReferences, s.references_move σ,
      statementReferences_move σ rest, List.map_append]

theorem methodReferences_move (σ : Shift) : ∀ methods : List FunctionDecl,
    methodReferences (moveMethods σ methods) = (methodReferences methods).map σ.id
  | [] => rfl
  | method :: rest => by
    simp only [moveMethods, methodReferences, method.references_move σ,
      methodReferences_move σ rest, List.map_append]

end

theorem statementReferences_ofLines (f : Nat → Nat) (body : List Stmt) :
    statementReferences (moveStatements (.ofLines f) body) = statementReferences body := by
  rw [statementReferences_move, List.map_id']

end Treewalk
