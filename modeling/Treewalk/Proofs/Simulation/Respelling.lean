import Treewalk.Proofs.Binding.Respelling
import Treewalk.Proofs.Simulation.Carrying

/-!
# A program in another spelling is alike

**A program with another spelling for one of its variables is the same program, when in the scope
of the variable the two spellings are exchanged.**  The marks on the way through a tree tell in
which scopes that is.  Hop counts are the same on both sides, and so are lines.
-/

namespace Treewalk

open Correspondence

namespace Respelling

variable (r : Respelling)

theorem exchange_this (hold : IsUnreserved r.old) (hnew : IsUnreserved r.new) (here : Bool) :
    r.exchange here "this" = "this" :=
  r.exchange_of_ne hold.ne_this.symm hnew.ne_this.symm here

/-- Nothing differs but the spelling of one variable. -/
def correspondence (hold : IsUnreserved r.old) (hnew : IsUnreserved r.new) : Correspondence where
  left := r.table
  right := r.table
  kept := fun _ => True
  lines := fun line line' => line' = line
  renames := fun π => ∃ here, π = r.exchange here
  occurs := fun text => text ≠ r.new
  renames_same := ⟨false, rfl⟩
  renames_this := by
    rintro π ⟨here, rfl⟩
    exact r.exchange_this hold hnew here

/-- How names are exchanged in scopes with these marks. -/
def renamings (marks : List Bool) : List Renaming :=
  marks.map r.exchange

theorem headD_renamings (marks : List Bool) :
    (r.renamings marks).headD .same = r.exchange (marks.headD false) := by
  cases marks <;> rfl

theorem atHops_renamings (marks : List Bool) (id : Nat) :
    atHops (r.renamings marks) r.table[id]? = r.exchange (r.isMeant marks id) := by
  unfold isMeant
  rcases r.table[id]? with _ | hops
  · rfl
  · show (marks.map r.exchange).getD hops Renaming.same = r.exchange (marks.getD hops false)
    rw [List.getD_eq_getElem?_getD, List.getD_eq_getElem?_getD, List.getElem?_map]
    cases marks[hops]? <;> rfl

theorem methodRenamings_renamings (marks : List Bool) (derived : Bool) :
    methodRenamings derived (r.renamings marks) = r.renamings (methodMarks derived marks) := by
  cases derived <;> rfl

theorem spell_line (here : Bool) (name : Name) : (r.spell here name).line = name.line := by
  unfold spell
  split <;> rfl

end Respelling

section Spelling

variable {r : Respelling} (hold : IsUnreserved r.old) (hnew : IsUnreserved r.new)

theorem nameLike_spell {name : Name} (h : name.text ≠ r.new) (here : Bool) :
    NameLike (r.correspondence hold hnew) (r.exchange here) name (r.spell here name) :=
  ⟨r.spell_text h here, r.spell_line here name⟩

/-- What is not spelled anew. -/
theorem nameLike_unspelled (name : Name) : NameLike (r.correspondence hold hnew) .same name name :=
  ⟨rfl, rfl⟩

theorem refLike_respell (marks : List Bool) {name : Name} (id : Nat) (h : name.text ≠ r.new) :
    RefLike (r.correspondence hold hnew) (r.renamings marks) id name.text
      (r.spell (r.isMeant marks id) name).text where
  hops := rfl
  text := by
    rw [r.spell_text h]
    exact congrArg (fun π : Renaming => π name.text) (r.atHops_renamings marks id).symm

/-- A keyword that is looked up like a name. -/
theorem refLike_keyword (marks : List Bool) (id : Nat) {text : String} (h : text ≠ r.old)
    (h' : text ≠ r.new) : RefLike (r.correspondence hold hnew) (r.renamings marks) id text text where
  hops := rfl
  text := by
    have hsame : atHops (r.renamings marks) r.table[id]? text = text := by
      rw [r.atHops_renamings]
      exact r.exchange_of_ne h h' _
    exact hsame.symm

mutual

theorem exprLike_respell (marks : List Bool) : ∀ e : Expr, e.Avoids r.new →
    ExprLike (r.correspondence hold hnew) (r.renamings marks) e (e.respell r marks)
  | .literal value, _ => .literal value
  | .grouping inner, ha => .grouping (exprLike_respell marks inner ha)
  | .unary _ _ operand, ha => .unary rfl (exprLike_respell marks operand ha)
  | .binary _ _ left right, ha =>
    .binary rfl (exprLike_respell marks left ha.1) (exprLike_respell marks right ha.2)
  | .logical _ _ left right, ha =>
    .logical (exprLike_respell marks left ha.1) (exprLike_respell marks right ha.2)
  | .variable name id, ha =>
    .variable (r.spell_line _ name) (refLike_respell hold hnew marks id ha)
  | .assign name id value, ha =>
    .assign (r.spell_line _ name) (refLike_respell hold hnew marks id ha.2)
      (exprLike_respell marks value ha.1)
  | .call callee _ args, ha =>
    .call (exprLike_respell marks callee ha.1) rfl (argumentsLike_respell marks args ha.2)
  | .get object name, ha => .get (exprLike_respell marks object ha) (nameLike_unspelled hold hnew name)
  | .set object name value, ha =>
    .set (exprLike_respell marks object ha.1) (nameLike_unspelled hold hnew name)
      (exprLike_respell marks value ha.2)
  | .this _ id, _ => .this rfl (refLike_keyword hold hnew marks id hold.ne_this.symm hnew.ne_this.symm)
  | .super _ id method, _ =>
    .super rfl (refLike_keyword hold hnew marks id hold.ne_super.symm hnew.ne_super.symm)
      (nameLike_unspelled hold hnew method)

theorem argumentsLike_respell (marks : List Bool) : ∀ args : List Expr, AvoidedArguments r.new args →
    ArgumentsLike (r.correspondence hold hnew) (r.renamings marks) args (respellArguments r marks args)
  | [], _ => .nil
  | argument :: args, ha =>
    .cons (exprLike_respell marks argument ha.1) (argumentsLike_respell marks args ha.2)

end

theorem optionalLike_respell (marks : List Bool) (value : Option Expr)
    (ha : ∀ result, value = some result → result.Avoids r.new) :
    OptionalLike (r.correspondence hold hnew) (r.renamings marks) value
      (value.map (Expr.respell r marks)) := by
  cases value with
  | none => exact .none
  | some value => exact .some (exprLike_respell hold hnew marks value (ha value rfl))

theorem superclassLike_respell (marks : List Bool) (superclass : Option Reference)
    (ha : ∀ parent, superclass = some parent → parent.name.text ≠ r.new) :
    Option.Rel (SuperclassLike (r.correspondence hold hnew) (r.renamings marks)) superclass
      (superclass.map (Reference.respell r marks)) := by
  cases superclass with
  | none => exact .none
  | some parent =>
    exact .some ⟨rfl, r.spell_line _ parent.name,
      refLike_respell hold hnew marks parent.id (ha parent rfl), ha parent rfl⟩

theorem namesLike_respell (here : Bool) (names : List Name) (ha : ∀ name ∈ names, name.text ≠ r.new) :
    List.Forall₂ (NameLike (r.correspondence hold hnew) (r.exchange here)) names
      (names.map (r.spell here)) :=
  List.forall₂_map_right_iff.mpr
    (List.forall₂_same.mpr fun name hname => nameLike_spell hold hnew (ha name hname) here)

mutual

/-- A statement is like itself in the new spelling, if that was free. -/
theorem stmtLike_respell (marks : List Bool) (first : Nat) : ∀ s : Stmt, s.Avoids r.new →
    s.Separate r (marks.headD false) first →
    StmtLike (r.correspondence hold hnew) (r.renamings marks) s (s.respell r marks first)
  | .expression value, ha, _ => .expression (exprLike_respell hold hnew marks value ha)
  | .print value, ha, _ => .print (exprLike_respell hold hnew marks value ha)
  | .var name initializer, ha, _ => by
    rw [Stmt.Avoids] at ha
    refine .var ?_ (optionalLike_respell hold hnew marks initializer ha.2)
    rw [r.headD_renamings]
    exact nameLike_spell hold hnew ha.1 _
  | .block body, ha, hsep => by
    rw [Stmt.Avoids] at ha
    rw [Stmt.Separate] at hsep
    exact .block ⟨first == r.scope, rfl⟩
      (statementsLike_respell ((first == r.scope) :: marks) (first + 1) body ha hsep)
  | .ifElse condition thenBranch none, ha, hsep => by
    rw [Stmt.Avoids] at ha
    rw [Stmt.Separate] at hsep
    exact .ifThen (exprLike_respell hold hnew marks condition ha.1)
      (stmtLike_respell marks first thenBranch ha.2 hsep)
  | .ifElse condition thenBranch (some elseBranch), ha, hsep => by
    rw [Stmt.Avoids] at ha
    rw [Stmt.Separate] at hsep
    exact .ifElse (exprLike_respell hold hnew marks condition ha.1)
      (stmtLike_respell marks first thenBranch ha.2.1 hsep.1)
      (stmtLike_respell marks _ elseBranch ha.2.2 hsep.2)
  | .whileLoop condition body, ha, hsep => by
    rw [Stmt.Avoids] at ha
    rw [Stmt.Separate] at hsep
    exact .whileLoop (exprLike_respell hold hnew marks condition ha.1)
      (stmtLike_respell marks first body ha.2 hsep)
  | .function declaration, ha, hsep => by
    rw [Stmt.Avoids] at ha
    rw [Stmt.Separate] at hsep
    refine .function ?_ (functionLike_respell marks first declaration ha hsep.2)
    rw [r.headD_renamings]
    exact (r.exchange_head (declaration.name_ne_of_avoids ha) hsep.1).symm
  | .return _ value, ha, _ => by
    rw [Stmt.Avoids] at ha
    exact .return (optionalLike_respell hold hnew marks value ha)
  | .class name superclass methods, ha, hsep => by
    rw [Stmt.Avoids] at ha
    rw [Stmt.Separate] at hsep
    refine .class ?_ (nameLike_unspelled hold hnew name)
      (superclassLike_respell hold hnew marks superclass ha.2.1) ?_
    · rw [r.headD_renamings]
      exact (r.exchange_head ha.1 hsep.1).symm
    · rw [r.methodRenamings_renamings]
      exact methodsLike_respell _ first methods ha.2.2 hsep.2

theorem functionLike_respell (marks : List Bool) (first : Nat) : ∀ f : FunctionDecl, f.Avoids r.new →
    f.Separate r first →
    FunctionLike (r.correspondence hold hnew) (r.renamings marks) f (f.respell r marks first)
  | ⟨name, params, body⟩, ha, hsep => by
    rw [FunctionDecl.Avoids] at ha
    rw [FunctionDecl.Separate] at hsep
    exact .mk ⟨first == r.scope, rfl⟩ (nameLike_unspelled hold hnew name)
      (namesLike_respell hold hnew _ params ha.2.1) (fun _ _ => trivial)
      (statementsLike_respell ((first == r.scope) :: marks) (first + 1) body ha.2.2 hsep)

theorem statementsLike_respell (marks : List Bool) (first : Nat) : ∀ body : List Stmt,
    AvoidedStatements r.new body → SeparateStatements r (marks.headD false) first body →
    StatementsLike (r.correspondence hold hnew) (r.renamings marks) body
      (respellStatements r marks first body)
  | [], _, _ => .nil
  | s :: rest, ha, hsep => by
    rw [AvoidedStatements] at ha
    rw [SeparateStatements] at hsep
    exact .cons (stmtLike_respell marks first s ha.1 hsep.1)
      (statementsLike_respell marks _ rest ha.2 hsep.2)

theorem methodsLike_respell (marks : List Bool) (first : Nat) : ∀ methods : List FunctionDecl,
    AvoidedMethods r.new methods → SeparateMethods r first methods →
    MethodsLike (r.correspondence hold hnew) (r.renamings marks) methods
      (respellMethods r marks first methods)
  | [], _, _ => .nil
  | method :: rest, ha, hsep => by
    rw [AvoidedMethods] at ha
    rw [SeparateMethods] at hsep
    exact .cons (functionLike_respell marks first method ha.1 hsep.1)
      (methodsLike_respell marks _ rest ha.2 hsep.2)

end

end Spelling

end Treewalk
