import Treewalk.Proofs.Syntax.Relocation

/-!
# Numbers that were left out

**A source that is read with later numbers has the same tree but for the numbers, and the same
errors.**  So a range of numbers can be left out of a session, and everything behind it moves on.
-/

namespace Treewalk

/-- Only the numbers of references change. -/
abbrev Shift.ofIds (ι : Nat → Nat) : Shift := ⟨fun line => line, ι⟩

@[simp]
theorem Name.move_ofIds (ι : Nat → Nat) (name : Name) : name.move (.ofIds ι) = name := rfl

theorem names_move_ofIds (ι : Nat → Nat) (names : List Name) :
    names.map (Name.move (.ofIds ι)) = names :=
  List.map_id names

/-- A range of numbers is left out. -/
abbrev Shift.gap (first width : Nat) : Shift := .ofIds (withGap first width)

/-! ### Trees that keep their numbers -/

section Fixed

variable {ι : Nat → Nat}

mutual

theorem Expr.move_of_fixed : ∀ e : Expr, (∀ id ∈ e.references, ι id = id) →
    e.move (.ofIds ι) = e
  | .literal _, _ => rfl
  | .grouping inner, h => by rw [Expr.move, inner.move_of_fixed h]
  | .unary _ _ operand, h => by rw [Expr.move, operand.move_of_fixed h]
  | .binary _ _ left right, h => by
    rw [Expr.references, List.forall_mem_append] at h
    rw [Expr.move, left.move_of_fixed h.1, right.move_of_fixed h.2]
  | .logical _ _ left right, h => by
    rw [Expr.references, List.forall_mem_append] at h
    rw [Expr.move, left.move_of_fixed h.1, right.move_of_fixed h.2]
  | .variable _ id, h => by
    rw [Expr.move, Name.move_ofIds]
    exact congrArg _ (h id List.mem_cons_self)
  | .assign _ id value, h => by
    rw [Expr.references, List.forall_mem_append] at h
    have hid : ι id = id := h.2 id List.mem_cons_self
    rw [Expr.move, Name.move_ofIds, value.move_of_fixed h.1]
    simp only [hid]
  | .call callee _ args, h => by
    rw [Expr.references, List.forall_mem_append] at h
    rw [Expr.move, callee.move_of_fixed h.1, moveArguments_of_fixed args h.2]
  | .get object _, h => by rw [Expr.move, object.move_of_fixed h, Name.move_ofIds]
  | .set object _ value, h => by
    rw [Expr.references, List.forall_mem_append] at h
    rw [Expr.move, object.move_of_fixed h.1, value.move_of_fixed h.2, Name.move_ofIds]
  | .this _ id, h => congrArg _ (h id List.mem_cons_self)
  | .super _ id _, h => by
    have hid : ι id = id := h id List.mem_cons_self
    simp only [Expr.move, Name.move_ofIds, hid]

theorem moveArguments_of_fixed : ∀ args : List Expr, (∀ id ∈ argumentReferences args, ι id = id) →
    moveArguments (.ofIds ι) args = args
  | [], _ => rfl
  | argument :: args, h => by
    rw [argumentReferences, List.forall_mem_append] at h
    rw [moveArguments, argument.move_of_fixed h.1, moveArguments_of_fixed args h.2]

end

theorem moveOptional_of_fixed {value : Option Expr}
    (h : ∀ id ∈ optionalReferences value, ι id = id) :
    value.map (Expr.move (.ofIds ι)) = value := by
  rcases value with _ | value
  · rfl
  · exact congrArg some (value.move_of_fixed h)

theorem moveSuperclass_of_fixed {r : Option Reference}
    (h : ∀ id ∈ superclassReferences r, ι id = id) :
    r.map (Reference.move (.ofIds ι)) = r := by
  rcases r with _ | r
  · rfl
  · have hid : ι r.id = r.id := h r.id List.mem_cons_self
    simp only [Option.map_some, Reference.move, Name.move_ofIds, hid]

mutual

theorem Stmt.move_of_fixed : ∀ s : Stmt, (∀ id ∈ s.references, ι id = id) →
    s.move (.ofIds ι) = s
  | .expression value, h => by rw [Stmt.move, value.move_of_fixed h]
  | .print value, h => by rw [Stmt.move, value.move_of_fixed h]
  | .var _ initializer, h => by rw [Stmt.move, moveOptional_of_fixed h, Name.move_ofIds]
  | .block body, h => by rw [Stmt.move, moveStatements_of_fixed body h]
  | .ifElse condition thenBranch none, h => by
    rw [Stmt.references, List.forall_mem_append] at h
    rw [Stmt.move, condition.move_of_fixed h.1, thenBranch.move_of_fixed h.2]
  | .ifElse condition thenBranch (some elseBranch), h => by
    rw [Stmt.references, List.forall_mem_append, List.forall_mem_append] at h
    rw [Stmt.move, condition.move_of_fixed h.1, thenBranch.move_of_fixed h.2.1,
      elseBranch.move_of_fixed h.2.2]
  | .whileLoop condition body, h => by
    rw [Stmt.references, List.forall_mem_append] at h
    rw [Stmt.move, condition.move_of_fixed h.1, body.move_of_fixed h.2]
  | .function declaration, h => by rw [Stmt.move, declaration.move_of_fixed h]
  | .return _ value, h => by rw [Stmt.move, moveOptional_of_fixed h]
  | .class _ superclass methods, h => by
    rw [Stmt.references, List.forall_mem_append] at h
    rw [Stmt.move, moveSuperclass_of_fixed h.1, moveMethods_of_fixed methods h.2, Name.move_ofIds]

theorem FunctionDecl.move_of_fixed : ∀ f : FunctionDecl, (∀ id ∈ f.references, ι id = id) →
    f.move (.ofIds ι) = f
  | ⟨_, _, body⟩, h => by
    rw [FunctionDecl.move, names_move_ofIds, moveStatements_of_fixed body h, Name.move_ofIds]

theorem moveStatements_of_fixed : ∀ body : List Stmt, (∀ id ∈ statementReferences body, ι id = id) →
    moveStatements (.ofIds ι) body = body
  | [], _ => rfl
  | s :: rest, h => by
    rw [statementReferences, List.forall_mem_append] at h
    rw [moveStatements, s.move_of_fixed h.1, moveStatements_of_fixed rest h.2]

theorem moveMethods_of_fixed : ∀ methods : List FunctionDecl,
    (∀ id ∈ methodReferences methods, ι id = id) → moveMethods (.ofIds ι) methods = methods
  | [], _ => rfl
  | method :: rest, h => by
    rw [methodReferences, List.forall_mem_append] at h
    rw [moveMethods, method.move_of_fixed h.1, moveMethods_of_fixed rest h.2]

end

end Fixed

/-! ### Whole sources -/

section Sources

variable {first width : Nat}

/-- The lines stay, and a range of numbers is left out. -/
abbrev Relocation.gap (first width : Nat) : Relocation := ⟨fun line => line, first, width⟩

theorem SyntaxError.map_move_same (errors : List SyntaxError) :
    errors.map (SyntaxError.move fun line => line) = errors :=
  List.map_id errors

theorem Cursor.start_behind (tokens : List Token) {next : Nat} (hle : first ≤ next) (width : Nat) :
    (start tokens next).Relocated (.gap first width) (start tokens (next + width)) where
  le := hle
  eq := by
    have hsame : ∀ ts : List Token, ts.map (Token.move fun line => line) = ts := List.map_id
    rw [hsame, SyntaxError.map_move_same]
    rfl

/-- A program is read with a range of numbers left out in front of it. -/
theorem Cursor.program_behind {tokens : List Token} {next : Nat} (hle : first ≤ next) (width : Nat)
    {program : Program} {errors : List SyntaxError} {cursor : Cursor}
    (hread : (start tokens next).program = (program, errors, cursor)) :
    first ≤ cursor.nextId ∧ ∃ cursor' : Cursor, cursor'.nextId = cursor.nextId + width
      ∧ (start tokens (next + width)).program
        = (moveStatements (.gap first width) program, errors, cursor') := by
  obtain ⟨cursor', hread', hbehind⟩ := program_relocated (start_behind tokens hle width) hread
  rw [SyntaxError.map_move_same] at hread'
  exact ⟨hbehind.le, cursor', congrArg Cursor.nextId hbehind.eq, hread'⟩

/-- So is a single expression. -/
theorem Cursor.expression_behind {tokens : List Token} {next : Nat} (hle : first ≤ next)
    (width : Nat) {value? : Option Expr} {errors : List SyntaxError} {cursor : Cursor}
    (hread : (start tokens next).expression = (value?, errors, cursor)) :
    first ≤ cursor.nextId ∧ ∃ cursor' : Cursor, cursor'.nextId = cursor.nextId + width
      ∧ (start tokens (next + width)).expression
        = (value?.map (Expr.move (.gap first width)), errors, cursor') := by
  obtain ⟨cursor', hread', hbehind⟩ := expression_relocated (start_behind tokens hle width) hread
  rw [SyntaxError.map_move_same] at hread'
  exact ⟨hbehind.le, cursor', congrArg Cursor.nextId hbehind.eq, hread'⟩

end Sources

end Treewalk
