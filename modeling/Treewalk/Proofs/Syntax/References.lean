import Treewalk.Syntax

/-!
# References and well-formed trees

**Everything that is known about a reference is filed under its number.**  Here the numbers in
a tree are listed from left to right.  Two trees can be told apart by them as long as no number
is given twice, which is what `Numbered` says of a list: no repetition, and all within a range.

A tree is well-formed when its names are no reserved words, and no branch and no loop body is
a bare declaration.  The second matters for scopes: a declaration that may or may not run would
leave the scope in doubt.
-/

namespace Treewalk

/-! ### Numbers in a tree -/

mutual

/-- The numbers of the references in an expression. -/
def Expr.references : Expr → List Nat
  | .literal _ => []
  | .grouping inner => inner.references
  | .unary _ _ operand => operand.references
  | .binary _ _ left right => left.references ++ right.references
  | .logical _ _ left right => left.references ++ right.references
  | .variable _ id => [id]
  | .assign _ id value => value.references ++ [id]
  | .call callee _ args => callee.references ++ argumentReferences args
  | .get object _ => object.references
  | .set object _ value => object.references ++ value.references
  | .this _ id => [id]
  | .super _ id _ => [id]

/-- The numbers of the references in arguments. -/
def argumentReferences : List Expr → List Nat
  | [] => []
  | argument :: args => argument.references ++ argumentReferences args

end

/-- The numbers of the references in an expression that may be missing. -/
def optionalReferences : Option Expr → List Nat
  | some value => value.references
  | none => []

/-- The number of the reference to a superclass, if there is one. -/
def superclassReferences : Option Reference → List Nat
  | some superclass => [superclass.id]
  | none => []

mutual

/-- The numbers of the references in a statement. -/
def Stmt.references : Stmt → List Nat
  | .expression value => value.references
  | .print value => value.references
  | .var _ initializer => optionalReferences initializer
  | .block body => statementReferences body
  | .ifElse condition thenBranch none => condition.references ++ thenBranch.references
  | .ifElse condition thenBranch (some elseBranch) =>
    condition.references ++ (thenBranch.references ++ elseBranch.references)
  | .whileLoop condition body => condition.references ++ body.references
  | .function declaration => declaration.references
  | .return _ value => optionalReferences value
  | .class _ superclass methods => superclassReferences superclass ++ methodReferences methods

/-- The numbers of the references in a function. -/
def FunctionDecl.references : FunctionDecl → List Nat
  | ⟨_, _, body⟩ => statementReferences body

/-- The numbers of the references in a list of statements. -/
def statementReferences : List Stmt → List Nat
  | [] => []
  | statement :: rest => statement.references ++ statementReferences rest

/-- The numbers of the references in the methods of a class. -/
def methodReferences : List FunctionDecl → List Nat
  | [] => []
  | method :: rest => method.references ++ methodReferences rest

end

/-! ### Ranges of numbers -/

/-- The numbers are all different, and all from `first` on and before `last`. -/
structure Numbered (first last : Nat) (ids : List Nat) : Prop where
  nodup : ids.Nodup
  ge : ∀ id ∈ ids, first ≤ id
  lt : ∀ id ∈ ids, id < last

namespace Numbered

theorem nil (first last : Nat) : Numbered first last [] where
  nodup := List.nodup_nil
  ge := fun _ h => by cases h
  lt := fun _ h => by cases h

theorem singleton (id : Nat) : Numbered id (id + 1) [id] where
  nodup := by simp
  ge := fun _ h => Nat.le_of_eq (List.mem_singleton.mp h).symm
  lt := fun _ h => by rw [List.mem_singleton.mp h]; exact Nat.lt_succ_self id

theorem mono {first last first' last' : Nat} {ids : List Nat} (h : Numbered first last ids)
    (hfirst : first' ≤ first) (hlast : last ≤ last') : Numbered first' last' ids where
  nodup := h.nodup
  ge := fun id hid => Nat.le_trans hfirst (h.ge id hid)
  lt := fun id hid => Nat.lt_of_lt_of_le (h.lt id hid) hlast

/-- Neighbouring ranges have no number in common. -/
theorem append {first middle last : Nat} {ids more : List Nat} (h : Numbered first middle ids)
    (hmore : Numbered middle last more) (hfirst : first ≤ middle) (hlast : middle ≤ last) :
    Numbered first last (ids ++ more) where
  nodup := by
    refine List.nodup_append.mpr ⟨h.nodup, hmore.nodup, ?_⟩
    intro id hid other hother heq
    have hlt := h.lt id hid
    have hge := hmore.ge other hother
    omega
  ge := fun id hid => by
    rcases List.mem_append.mp hid with hid | hid
    · exact h.ge id hid
    · exact Nat.le_trans hfirst (hmore.ge id hid)
  lt := fun id hid => by
    rcases List.mem_append.mp hid with hid | hid
    · exact Nat.lt_of_lt_of_le (h.lt id hid) hlast
    · exact hmore.lt id hid

theorem swap {first last : Nat} {ids more : List Nat} (h : Numbered first last (ids ++ more)) :
    Numbered first last (more ++ ids) where
  nodup := (List.perm_append_comm.nodup_iff).mp h.nodup
  ge := fun id hid => h.ge id (List.mem_append.mpr (List.mem_append.mp hid).symm)
  lt := fun id hid => h.lt id (List.mem_append.mpr (List.mem_append.mp hid).symm)

end Numbered

/-! ### Well-formed trees -/

/-- A word that is free to be a name. -/
def IsUnreserved (word : String) : Prop :=
  TokenKind.ofWord word = .identifier

theorem IsUnreserved.ne_this {word : String} (h : IsUnreserved word) : word ≠ "this" := by
  rintro rfl
  cases h

theorem IsUnreserved.ne_super {word : String} (h : IsUnreserved word) : word ≠ "super" := by
  rintro rfl
  cases h

/-- Does the statement declare a name in the scope that it stands in? -/
def Stmt.isDeclaration : Stmt → Bool
  | .var _ _ | .function _ | .class _ _ _ => true
  | _ => false

mutual

/-- The names in an expression are free to be names. -/
def Expr.WellFormed : Expr → Prop
  | .literal _ => True
  | .grouping inner => inner.WellFormed
  | .unary _ _ operand => operand.WellFormed
  | .binary _ _ left right => left.WellFormed ∧ right.WellFormed
  | .logical _ _ left right => left.WellFormed ∧ right.WellFormed
  | .variable name _ => IsUnreserved name.text
  | .assign name _ value => value.WellFormed ∧ IsUnreserved name.text
  | .call callee _ args => callee.WellFormed ∧ WellFormedArguments args
  | .get object _ => object.WellFormed
  | .set object _ value => object.WellFormed ∧ value.WellFormed
  | .this _ _ => True
  | .super _ _ _ => True

/-- All arguments are well-formed. -/
def WellFormedArguments : List Expr → Prop
  | [] => True
  | argument :: args => argument.WellFormed ∧ WellFormedArguments args

end

mutual

/-- Names are free to be names, and branches and loop bodies are no declarations. -/
def Stmt.WellFormed : Stmt → Prop
  | .expression value => value.WellFormed
  | .print value => value.WellFormed
  | .var name initializer => IsUnreserved name.text ∧ ∀ value, initializer = some value → value.WellFormed
  | .block body => WellFormedStatements body
  | .ifElse condition thenBranch none =>
    condition.WellFormed ∧ thenBranch.WellFormed ∧ thenBranch.isDeclaration = false
  | .ifElse condition thenBranch (some elseBranch) =>
    condition.WellFormed ∧ (thenBranch.WellFormed ∧ thenBranch.isDeclaration = false)
      ∧ elseBranch.WellFormed ∧ elseBranch.isDeclaration = false
  | .whileLoop condition body =>
    condition.WellFormed ∧ body.WellFormed ∧ body.isDeclaration = false
  | .function declaration => declaration.WellFormed
  | .return _ value => ∀ result, value = some result → result.WellFormed
  | .class name superclass methods =>
    IsUnreserved name.text ∧ (∀ parent, superclass = some parent → IsUnreserved parent.name.text)
      ∧ WellFormedMethods methods

/-- The function has a name, and parameters, that are free to be names. -/
def FunctionDecl.WellFormed : FunctionDecl → Prop
  | ⟨name, params, body⟩ =>
    IsUnreserved name.text ∧ (∀ param ∈ params, IsUnreserved param.text)
      ∧ WellFormedStatements body

/-- All statements are well-formed. -/
def WellFormedStatements : List Stmt → Prop
  | [] => True
  | statement :: rest => statement.WellFormed ∧ WellFormedStatements rest

/-- All methods are well-formed. -/
def WellFormedMethods : List FunctionDecl → Prop
  | [] => True
  | method :: rest => method.WellFormed ∧ WellFormedMethods rest

end

end Treewalk
