import Treewalk.Syntax.Parser

/-!
# Comparing trees

**Two trees are compared from their roots on, and the comparison says whether they are the same.**
With it one can decide what a given source is read as: the tokens are compared, then the trees.
-/

namespace Treewalk

deriving instance DecidableEq for TokenKind
deriving instance DecidableEq for Token
deriving instance DecidableEq for SyntaxError
deriving instance DecidableEq for Literal

/-! ### Expressions -/

mutual

/-- Are two expressions the same? -/
def Expr.same : Expr → Expr → Bool
  | .literal a, .literal b => a = b
  | .grouping a, .grouping b => a.same b
  | .unary op line a, .unary op' line' b => op = op' && line = line' && a.same b
  | .binary op line a c, .binary op' line' b d =>
    op = op' && line = line' && a.same b && c.same d
  | .logical op line a c, .logical op' line' b d =>
    op = op' && line = line' && a.same b && c.same d
  | .variable name id, .variable name' id' => name = name' && id = id'
  | .assign name id a, .assign name' id' b => name = name' && id = id' && a.same b
  | .call a line args, .call b line' args' => a.same b && line = line' && sameArguments args args'
  | .get a name, .get b name' => a.same b && name = name'
  | .set a name c, .set b name' d => a.same b && name = name' && c.same d
  | .this line id, .this line' id' => line = line' && id = id'
  | .super line id method, .super line' id' method' => line = line' && id = id' && method = method'
  | _, _ => false

/-- Are two lists of arguments the same? -/
def sameArguments : List Expr → List Expr → Bool
  | [], [] => true
  | a :: args, b :: args' => a.same b && sameArguments args args'
  | _, _ => false

end

mutual

theorem Expr.same_iff : ∀ {a b : Expr}, a.same b = true ↔ a = b
  | .literal _, b => by cases b <;> simp [Expr.same]
  | .grouping a, b => by cases b <;> simp [Expr.same, a.same_iff]
  | .unary _ _ a, b => by cases b <;> simp [Expr.same, a.same_iff, and_assoc]
  | .binary _ _ a c, b => by cases b <;> simp [Expr.same, a.same_iff, c.same_iff, and_assoc]
  | .logical _ _ a c, b => by cases b <;> simp [Expr.same, a.same_iff, c.same_iff, and_assoc]
  | .variable _ _, b => by cases b <;> simp [Expr.same]
  | .assign _ _ a, b => by cases b <;> simp [Expr.same, a.same_iff, and_assoc]
  | .call a _ args, b => by
    cases b <;> simp [Expr.same, a.same_iff, sameArguments_iff (s := args), and_assoc]
  | .get a _, b => by cases b <;> simp [Expr.same, a.same_iff]
  | .set a _ c, b => by cases b <;> simp [Expr.same, a.same_iff, c.same_iff, and_assoc]
  | .this _ _, b => by cases b <;> simp [Expr.same]
  | .super _ _ _, b => by cases b <;> simp [Expr.same, and_assoc]

theorem sameArguments_iff : ∀ {s t : List Expr}, sameArguments s t = true ↔ s = t
  | [], args' => by cases args' <;> simp [sameArguments]
  | a :: args, args' => by
    cases args' <;> simp [sameArguments, a.same_iff, sameArguments_iff (s := args)]

end

instance : DecidableEq Expr := fun _ _ => decidable_of_iff _ Expr.same_iff

/-! ### Statements -/

mutual

/-- Are two statements the same? -/
def Stmt.same : Stmt → Stmt → Bool
  | .expression value, .expression value' => value = value'
  | .print value, .print value' => value = value'
  | .var name initializer, .var name' initializer' => name = name' && initializer = initializer'
  | .block body, .block body' => sameStatements body body'
  | .ifElse e s none, .ifElse e' s' none => e = e' && s.same s'
  | .ifElse e s (some t), .ifElse e' s' (some t') => e = e' && s.same s' && t.same t'
  | .whileLoop e body, .whileLoop e' body' => e = e' && body.same body'
  | .function f, .function g => f.same g
  | .return line value, .return line' value' => line = line' && value = value'
  | .class name superclass methods, .class name' superclass' methods' =>
    name = name' && superclass = superclass' && sameMethods methods methods'
  | _, _ => false

/-- Are two declarations of functions the same? -/
def FunctionDecl.same : FunctionDecl → FunctionDecl → Bool
  | ⟨name, params, body⟩, ⟨name', params', body'⟩ =>
    name = name' && params = params' && sameStatements body body'

/-- Are two lists of statements the same? -/
def sameStatements : List Stmt → List Stmt → Bool
  | [], [] => true
  | s :: rest, t :: rest' => s.same t && sameStatements rest rest'
  | _, _ => false

/-- Are two lists of methods the same? -/
def sameMethods : List FunctionDecl → List FunctionDecl → Bool
  | [], [] => true
  | f :: rest, g :: rest' => f.same g && sameMethods rest rest'
  | _, _ => false

end

mutual

theorem Stmt.same_iff : ∀ {s t : Stmt}, s.same t = true ↔ s = t
  | .expression _, t => by cases t <;> simp [Stmt.same]
  | .print _, t => by cases t <;> simp [Stmt.same]
  | .var _ _, t => by cases t <;> simp [Stmt.same]
  | .block body, t => by cases t <;> simp [Stmt.same, sameStatements_iff (s := body)]
  | .ifElse _ s none, t => by
    rcases t with _ | _ | _ | _ | ⟨_, _, _ | _⟩ | _ | _ | _ | _ <;> simp [Stmt.same, s.same_iff]
  | .ifElse _ s (some u), t => by
    rcases t with _ | _ | _ | _ | ⟨_, _, _ | _⟩ | _ | _ | _ | _ <;>
      simp [Stmt.same, s.same_iff, u.same_iff, and_assoc]
  | .whileLoop _ body, t => by cases t <;> simp [Stmt.same, body.same_iff]
  | .function f, t => by cases t <;> simp [Stmt.same, f.same_iff]
  | .return _ _, t => by cases t <;> simp [Stmt.same]
  | .class _ _ methods, t => by
    cases t <;> simp [Stmt.same, sameMethods_iff (s := methods), and_assoc]

theorem FunctionDecl.same_iff : ∀ {f g : FunctionDecl}, f.same g = true ↔ f = g
  | ⟨_, _, body⟩, ⟨_, _, _⟩ => by
    simp [FunctionDecl.same, sameStatements_iff (s := body), and_assoc]

theorem sameStatements_iff : ∀ {s t : List Stmt}, sameStatements s t = true ↔ s = t
  | [], t => by cases t <;> simp [sameStatements]
  | s :: rest, t => by
    cases t <;> simp [sameStatements, s.same_iff, sameStatements_iff (s := rest)]

theorem sameMethods_iff : ∀ {s t : List FunctionDecl}, sameMethods s t = true ↔ s = t
  | [], t => by cases t <;> simp [sameMethods]
  | f :: rest, t => by
    cases t <;> simp [sameMethods, f.same_iff, sameMethods_iff (s := rest)]

end

instance : DecidableEq Stmt := fun _ _ => decidable_of_iff _ Stmt.same_iff

instance : DecidableEq FunctionDecl := fun _ _ => decidable_of_iff _ FunctionDecl.same_iff

deriving instance DecidableEq for Cursor

end Treewalk
