import Treewalk.Proofs.Binding.Placement
import Treewalk.Proofs.Syntax.Renumbering

/-!
# Scopes that are left out

**Code that is placed in scopes can be placed in fewer of them, if those that are left out hold no
names.**  Each hop count then passes over the scopes that are still there, and leads to the same scope
as before.  The code in the fewer scopes has references of its own, so that one table can serve both.
-/

namespace Treewalk

/-- The second list is the first without some scopes, which are empty.  These are marked. -/
inductive Thins : List Bool → List Scope → List Scope → Prop
  | nil : Thins [] [] []
  | keep {marks : List Bool} {L R : List Scope} (scope : Scope) (h : Thins marks L R) :
    Thins (false :: marks) (scope :: L) (scope :: R)
  | drop {marks : List Bool} {L R : List Scope} (h : Thins marks L R) :
    Thins (true :: marks) (∅ :: L) R

/-- A hop count without the scopes that are marked. -/
def thinned : List Bool → Nat → Nat
  | false :: marks, hops + 1 => thinned marks hops + 1
  | true :: marks, hops + 1 => thinned marks hops
  | _, _ => 0

@[simp]
theorem thinned_zero (marks : List Bool) : thinned marks 0 = 0 := by
  rcases marks with _ | ⟨_ | _, marks⟩ <;> rfl

/-- From a scope that is kept to the next one outward is a hop. -/
theorem thinned_succ {marks : List Bool} : ∀ {hops : Nat}, marks[hops]? = some false →
    thinned marks (hops + 1) = thinned marks hops + 1 := by
  induction marks with
  | nil => exact fun h => by cases h
  | cons mark marks ih =>
    intro hops h
    cases hops with
    | zero =>
      cases h
      rw [thinned_zero]
      exact congrArg (· + 1) (thinned_zero marks)
    | succ hops =>
      have hrest := ih (show marks[hops]? = some false by simpa using h)
      cases mark
      · exact congrArg (· + 1) hrest
      · exact hrest

section Names

variable {marks : List Bool} {L R : List Scope}

theorem Thins.same (scopes : List Scope) : Thins (scopes.map fun _ => false) scopes scopes := by
  induction scopes with
  | nil => exact .nil
  | cons scope scopes ih => exact .keep scope ih

/-- A name is found in the same scope, which is not one of those that are left out. -/
theorem Thins.hops (h : Thins marks L R) (text : String) :
    hopsIn R text = (hopsIn L text).map (thinned marks)
      ∧ ∀ hops, hopsIn L text = some hops → marks[hops]? = some false := by
  induction h with
  | nil => exact ⟨rfl, fun hops h => by cases h⟩
  | @keep marks L R scope _ ih =>
    by_cases hmem : text ∈ scope
    · rw [hopsIn_cons_of_mem hmem, hopsIn_cons_of_mem hmem]
      refine ⟨rfl, fun hops hhops => ?_⟩
      cases hhops
      rfl
    · rw [hopsIn_cons_of_not_mem hmem, hopsIn_cons_of_not_mem hmem, ih.1]
      constructor
      · cases hopsIn L text <;> rfl
      · intro hops hhops
        obtain ⟨inner, hinner, rfl⟩ := Option.map_eq_some_iff.mp hhops
        simpa using ih.2 inner hinner
  | @drop marks L R _ ih =>
    have hempty : text ∉ (∅ : Scope) := Std.ExtTreeMap.not_mem_empty
    rw [hopsIn_cons_of_not_mem hempty, ih.1]
    constructor
    · cases hopsIn L text <;> rfl
    · intro hops hhops
      obtain ⟨inner, hinner, rfl⟩ := Option.map_eq_some_iff.mp hhops
      simpa using ih.2 inner hinner

theorem Thins.defines (h : Thins marks L R) {hops : Nat} {text : String}
    (hdefines : Defines L hops text) :
    marks[hops]? = some false ∧ Defines R (thinned marks hops) text := by
  induction h generalizing hops with
  | nil =>
    obtain ⟨scope, hscope, -⟩ := hdefines
    cases hscope
  | keep scope _ ih =>
    cases hops with
    | zero => exact ⟨rfl, hdefines⟩
    | succ hops =>
      obtain ⟨hmark, hfound⟩ := ih (defines_cons_succ.mp hdefines)
      exact ⟨by simpa using hmark, defines_cons_succ.mpr hfound⟩
  | drop _ ih =>
    cases hops with
    | zero =>
      obtain ⟨scope, hscope, hname⟩ := hdefines
      cases hscope
      simp at hname
    | succ hops =>
      obtain ⟨hmark, hfound⟩ := ih (defines_cons_succ.mp hdefines)
      exact ⟨by simpa using hmark, hfound⟩

/-- In a scope that is kept, names can be declared. -/
theorem Thins.putName (h : Thins marks L R) (hkept : marks.head? ≠ some true) (text : String)
    (standing : Standing) : Thins marks (putName text standing L) (putName text standing R) := by
  cases h with
  | nil => exact .nil
  | keep scope h => exact .keep _ h
  | drop h => exact absurd rfl hkept

theorem Thins.methodScopes (h : Thins marks L R) (derived : Bool) :
    Thins (false :: if derived then false :: marks else marks) (methodScopes derived L)
      (methodScopes derived R) := by
  cases derived
  · exact .keep _ h
  · exact .keep _ (.keep _ h)

@[simp]
theorem Stmt.declaredName_move (σ : Shift) (s : Stmt) : (s.move σ).declaredName = s.declaredName := by
  cases s with
  | ifElse condition thenBranch elseBranch => cases elseBranch <;> rfl
  | function declaration =>
    rw [Stmt.move]
    exact congrArg (fun name => some name.text) (declaration.name_move σ)
  | _ => rfl

@[simp]
theorem Stmt.isDeclaration_move (σ : Shift) (s : Stmt) :
    (s.move σ).isDeclaration = s.isDeclaration := by
  cases s with
  | ifElse condition thenBranch elseBranch => cases elseBranch <;> rfl
  | _ => rfl

/-- If the statement declares a name, it stands in a scope that is kept. -/
def Stmt.KeptIn (marks : List Bool) (s : Stmt) : Prop :=
  s.isDeclaration = true → marks.head? ≠ some true

theorem Stmt.keptIn_of_plain {s : Stmt} (h : s.isDeclaration = false) (marks : List Bool) :
    s.KeptIn marks := fun hdeclares => by
  rw [h] at hdeclares
  cases hdeclares

theorem Thins.scopesAfter (h : Thins marks L R) {s : Stmt} (hkept : s.KeptIn marks) (σ : Shift) :
    Thins marks (s.scopesAfter L) ((s.move σ).scopesAfter R) := by
  unfold Stmt.scopesAfter
  rw [Stmt.declaredName_move]
  rcases hname : s.declaredName with _ | text
  · exact h
  · refine h.putName (hkept ?_) text .defined
    cases hdeclares : s.isDeclaration
    · rw [Stmt.declaredName_eq_none hdeclares] at hname
      cases hname
    · rfl

end Names

/-! ### Tables for the fewer scopes -/

/-- Every table can be changed at these references, and nowhere else, so that something holds. -/
def Settable (ids : List Nat) (P : HopTable → Prop) : Prop :=
  ∀ base : HopTable, ∃ table : HopTable, (∀ id, id ∉ ids → table[id]? = base[id]?) ∧ P table

section Tables

variable {P Q : HopTable → Prop} {ids others : List Nat}

theorem Settable.imp (h : Settable ids P) (hPQ : ∀ table, P table → Q table) : Settable ids Q := by
  intro base
  obtain ⟨table, hagree, hP⟩ := h base
  exact ⟨table, hagree, hPQ table hP⟩

theorem settable_nil (h : ∀ table, P table) : Settable [] P :=
  fun base => ⟨base, fun _ _ => rfl, h base⟩

theorem settable_single (id : Nat) (hops : Option Nat) :
    Settable [id] fun table => table[id]? = hops := by
  intro base
  cases hops with
  | none =>
    refine ⟨base.erase id, fun other hother => ?_, by simp⟩
    have hne : id ≠ other := fun heq => hother (heq ▸ List.mem_singleton_self id)
    simp [Std.ExtTreeMap.getElem?_erase, hne]
  | some hops =>
    refine ⟨base.insert id hops, fun other hother => ?_, by simp⟩
    have hne : id ≠ other := fun heq => hother (heq ▸ List.mem_singleton_self id)
    simp [Std.ExtTreeMap.getElem?_insert, hne]

/-- What depends on different references can be set together. -/
theorem Settable.and (hnodup : (ids ++ others).Nodup) (hP : Settable ids P)
    (hQ : Settable others Q)
    (hstable : ∀ table table' : HopTable, P table →
      (∀ id ∈ ids, table[id]? = table'[id]?) → P table') :
    Settable (ids ++ others) fun table => P table ∧ Q table := by
  intro base
  obtain ⟨middle, hmiddle, hP⟩ := hP base
  obtain ⟨table, htable, hQ⟩ := hQ middle
  refine ⟨table, fun id hid => ?_, hstable middle table hP fun id hid => ?_, hQ⟩
  · rw [List.mem_append, not_or] at hid
    rw [htable id hid.2, hmiddle id hid.1]
  · have hne := (List.nodup_append.mp hnodup).2.2 id hid
    exact (htable id fun hother => hne id hother rfl).symm

end Tables

section Placing

variable {ι : Nat → Nat} {left : HopTable} {kept : Nat → Prop} {marks : List Bool}
variable {L R : List Scope}

theorem Thins.settable_read (h : Thins marks L R) {id : Nat} {text : String}
    (hplaced : ReadPlaced left L id text) (id' : Nat) :
    Settable [id'] fun table => ReadPlaced table R id' text := by
  refine (settable_single id' (hopsIn R text)).imp fun table htable => ⟨htable, ?_⟩
  intro hops hhops
  rw [(h.hops text).1] at hhops
  obtain ⟨inner, hinner, rfl⟩ := Option.map_eq_some_iff.mp hhops
  exact (h.defines (hplaced.ready inner hinner)).2

theorem Thins.settable_super (h : Thins marks L R) {id : Nat} (hplaced : SuperPlaced left L id)
    (id' : Nat) : Settable [id'] fun table => SuperPlaced table R id' := by
  obtain ⟨inner, -, hhops, hsuper, hthis⟩ := hplaced
  obtain ⟨-, hsuper'⟩ := h.defines hsuper
  obtain ⟨hmark, hthis'⟩ := h.defines hthis
  have hhops' := (h.hops "super").1
  rw [hhops, Option.map_some, thinned_succ hmark] at hhops'
  rw [thinned_succ hmark] at hsuper'
  refine (settable_single id' (hopsIn R "super")).imp fun table htable => ?_
  exact ⟨thinned marks inner, htable.trans hhops', hhops', hsuper', hthis'⟩

mutual

/-- An expression can be placed in the fewer scopes. -/
theorem Expr.settable (hthins : Thins marks L R) : ∀ (e : Expr), e.Placed left L →
    (e.move (.ofIds ι)).references.Nodup →
    Settable (e.move (.ofIds ι)).references fun table => (e.move (.ofIds ι)).Placed table R
  | .literal _, _, _ => settable_nil fun _ => trivial
  | .grouping inner, h, hnodup => inner.settable hthins h hnodup
  | .unary _ _ operand, h, hnodup => operand.settable hthins h hnodup
  | .binary _ _ left right, h, hnodup => by
    have hparts := List.nodup_append.mp hnodup
    exact (left.settable hthins h.1 hparts.1).and hnodup (right.settable hthins h.2 hparts.2.1)
      fun _ _ hleft hagree => Expr.placed_of_agree _ hleft hagree
  | .logical _ _ left right, h, hnodup => by
    have hparts := List.nodup_append.mp hnodup
    exact (left.settable hthins h.1 hparts.1).and hnodup (right.settable hthins h.2 hparts.2.1)
      fun _ _ hleft hagree => Expr.placed_of_agree _ hleft hagree
  | .variable _ id, h, _ => hthins.settable_read h (ι id)
  | .assign name id value, h, hnodup => by
    have hparts := List.nodup_append.mp hnodup
    exact (value.settable hthins h.1 hparts.1).and hnodup
      (settable_single (ι id) (hopsIn R name.text))
      fun _ _ hvalue hagree => Expr.placed_of_agree _ hvalue hagree
  | .call callee _ args, h, hnodup => by
    have hparts := List.nodup_append.mp hnodup
    exact (callee.settable hthins h.1 hparts.1).and hnodup
      (settable_arguments hthins args h.2 hparts.2.1)
      fun _ _ hcallee hagree => Expr.placed_of_agree _ hcallee hagree
  | .get object _, h, hnodup => object.settable hthins h hnodup
  | .set object _ value, h, hnodup => by
    have hparts := List.nodup_append.mp hnodup
    exact (object.settable hthins h.1 hparts.1).and hnodup (value.settable hthins h.2 hparts.2.1)
      fun _ _ hobject hagree => Expr.placed_of_agree _ hobject hagree
  | .this _ id, h, _ => hthins.settable_read h (ι id)
  | .super _ id _, h, _ => hthins.settable_super h (ι id)

theorem settable_arguments (hthins : Thins marks L R) : ∀ (args : List Expr),
    PlacedArguments left L args → (argumentReferences (moveArguments (.ofIds ι) args)).Nodup →
    Settable (argumentReferences (moveArguments (.ofIds ι) args))
      fun table => PlacedArguments table R (moveArguments (.ofIds ι) args)
  | [], _, _ => settable_nil fun _ => trivial
  | argument :: args, h, hnodup => by
    have hparts := List.nodup_append.mp hnodup
    exact (argument.settable hthins h.1 hparts.1).and hnodup
      (settable_arguments hthins args h.2 hparts.2.1)
      fun _ _ hargument hagree => Expr.placed_of_agree _ hargument hagree

end

theorem settable_optional (hthins : Thins marks L R) (value : Option Expr)
    (h : ∀ e, value = some e → e.Placed left L)
    (hnodup : (optionalReferences (value.map (Expr.move (.ofIds ι)))).Nodup) :
    Settable (optionalReferences (value.map (Expr.move (.ofIds ι)))) fun table =>
      ∀ e, value.map (Expr.move (.ofIds ι)) = some e → e.Placed table R := by
  cases value with
  | none => exact settable_nil fun table e he => by cases he
  | some value =>
    refine (value.settable hthins (h value rfl) hnodup).imp fun table htable e he => ?_
    cases he
    exact htable

theorem settable_superclass (hthins : Thins marks L R) {name : Name}
    (superclass : Option Reference) (h : SuperclassPlaced left L name superclass) :
    Settable (superclassReferences (superclass.map (Reference.move (.ofIds ι)))) fun table =>
      SuperclassPlaced table R (name.move (.ofIds ι)) (superclass.map (Reference.move (.ofIds ι))) := by
  cases superclass with
  | none => exact settable_nil fun table parent hparent => by cases hparent
  | some parent =>
    obtain ⟨hne, hread⟩ := h parent rfl
    refine (hthins.settable_read hread (ι parent.id)).imp fun table htable found hfound => ?_
    cases hfound
    exact ⟨hne, htable⟩

mutual

/-- A statement can be placed in the fewer scopes.  It may declare a name only in a scope that is
    kept. -/
theorem Stmt.settable : ∀ (s : Stmt) {marks : List Bool} {L R : List Scope}, Thins marks L R →
    s.KeptIn marks → s.Placed left kept L →
    (s.move (.ofIds ι)).references.Nodup →
    Settable (s.move (.ofIds ι)).references fun table =>
      (s.move (.ofIds ι)).Placed table (fun _ => True) R
  | .expression value, _, _, _, hthins, _, h, hnodup => value.settable hthins h hnodup
  | .print value, _, _, _, hthins, _, h, hnodup => value.settable hthins h hnodup
  | .var name value, _, _, _, hthins, hkept, h, hnodup => by
    rw [Stmt.Placed] at h
    refine (settable_optional (hthins.putName (hkept rfl) name.text .declared) value h hnodup).imp ?_
    intro table htable
    rw [Stmt.move, Stmt.Placed]
    exact htable
  | .block body, _, _, _, hthins, _, h, hnodup => by
    rw [Stmt.Placed] at h
    rw [Stmt.move, Stmt.references] at hnodup ⊢
    refine (settable_statements body (.keep ∅ hthins) nofun h hnodup).imp fun table htable => ?_
    rw [Stmt.Placed]
    exact htable
  | .ifElse condition thenBranch none, _, _, _, hthins, _, h, hnodup => by
    rw [Stmt.Placed] at h
    rw [Stmt.move, Stmt.references] at hnodup ⊢
    have hparts := List.nodup_append.mp hnodup
    refine ((condition.settable hthins h.1 hparts.1).and hnodup
      (thenBranch.settable hthins (Stmt.keptIn_of_plain h.2.2 _) h.2.1 hparts.2.1)
      fun _ _ hcondition hagree => Expr.placed_of_agree _ hcondition hagree).imp ?_
    rintro table ⟨hcondition, hbranch⟩
    rw [Stmt.Placed, Stmt.isDeclaration_move]
    exact ⟨hcondition, hbranch, h.2.2⟩
  | .ifElse condition thenBranch (some elseBranch), _, _, _, hthins, _, h, hnodup => by
    rw [Stmt.Placed] at h
    rw [Stmt.move, Stmt.references] at hnodup ⊢
    have hparts := List.nodup_append.mp hnodup
    have hbranches := List.nodup_append.mp hparts.2.1
    refine ((condition.settable hthins h.1 hparts.1).and hnodup
      ((thenBranch.settable hthins (Stmt.keptIn_of_plain h.2.1.2 _) h.2.1.1 hbranches.1).and hparts.2.1
        (elseBranch.settable hthins (Stmt.keptIn_of_plain h.2.2.2 _) h.2.2.1 hbranches.2.1)
        fun _ _ hbranch hagree => Stmt.placed_of_agree (fun _ hid => hid) _ hbranch hagree)
      fun _ _ hcondition hagree => Expr.placed_of_agree _ hcondition hagree).imp ?_
    rintro table ⟨hcondition, hbranch, hother⟩
    rw [Stmt.Placed, Stmt.isDeclaration_move, Stmt.isDeclaration_move]
    exact ⟨hcondition, ⟨hbranch, h.2.1.2⟩, hother, h.2.2.2⟩
  | .whileLoop condition body, _, _, _, hthins, _, h, hnodup => by
    rw [Stmt.Placed] at h
    rw [Stmt.move, Stmt.references] at hnodup ⊢
    have hparts := List.nodup_append.mp hnodup
    refine ((condition.settable hthins h.1 hparts.1).and hnodup
      (body.settable hthins (Stmt.keptIn_of_plain h.2.2 _) h.2.1 hparts.2.1)
      fun _ _ hcondition hagree => Expr.placed_of_agree _ hcondition hagree).imp ?_
    rintro table ⟨hcondition, hround⟩
    rw [Stmt.Placed, Stmt.isDeclaration_move]
    exact ⟨hcondition, hround, h.2.2⟩
  | .function declaration, _, _, _, hthins, hkept, h, hnodup => by
    rw [Stmt.Placed] at h
    rw [Stmt.move, Stmt.references] at hnodup ⊢
    refine (declaration.settable (hthins.putName (hkept rfl) _ .defined) h hnodup).imp ?_
    intro table htable
    rw [Stmt.Placed, FunctionDecl.name_move]
    exact htable
  | .return _ value, _, _, _, hthins, _, h, hnodup => by
    rw [Stmt.Placed] at h
    refine (settable_optional hthins value h hnodup).imp fun table htable => ?_
    rw [Stmt.move, Stmt.Placed]
    exact htable
  | .class name superclass methods, _, _, _, hthins, hkept, h, hnodup => by
    rw [Stmt.Placed] at h
    rw [Stmt.move, Stmt.references] at hnodup ⊢
    have hparts := List.nodup_append.mp hnodup
    have hinner := (hthins.putName (hkept rfl) name.text .defined).methodScopes superclass.isSome
    refine ((settable_superclass hthins superclass h.1).and hnodup
      (settable_methods methods hinner h.2 hparts.2.1)
      fun _ _ hparent hagree => SuperclassPlaced.of_agree hparent hagree).imp ?_
    rintro table ⟨hparent, hmethods⟩
    rw [Stmt.Placed, Option.isSome_map]
    exact ⟨hparent, hmethods⟩

theorem FunctionDecl.settable : ∀ (f : FunctionDecl) {marks : List Bool} {L R : List Scope},
    Thins marks L R → f.Placed left kept L → (f.move (.ofIds ι)).references.Nodup →
    Settable (f.move (.ofIds ι)).references fun table =>
      (f.move (.ofIds ι)).Placed table (fun _ => True) R
  | ⟨name, params, body⟩, _, _, _, hthins, h, hnodup => by
    rw [FunctionDecl.Placed] at h
    rw [FunctionDecl.move, FunctionDecl.references] at hnodup ⊢
    refine (settable_statements body (.keep (paramScope params) hthins) nofun h.2 hnodup).imp ?_
    intro table htable
    have hparams : paramScope (params.map (Name.move (.ofIds ι))) = paramScope params := by
      rw [show Name.move (.ofIds ι) = id from rfl, List.map_id]
    rw [FunctionDecl.Placed, hparams]
    exact ⟨fun _ _ => trivial, htable⟩

theorem settable_statements : ∀ (body : List Stmt) {marks : List Bool} {L R : List Scope},
    Thins marks L R → marks.head? ≠ some true → PlacedStatements left kept L body →
    (statementReferences (moveStatements (.ofIds ι) body)).Nodup →
    Settable (statementReferences (moveStatements (.ofIds ι) body)) fun table =>
      PlacedStatements table (fun _ => True) R (moveStatements (.ofIds ι) body)
  | [], _, _, _, _, _, _, _ => by
    refine settable_nil fun table => ?_
    rw [moveStatements, PlacedStatements]
    trivial
  | s :: rest, _, _, _, hthins, hkept, h, hnodup => by
    rw [PlacedStatements] at h
    rw [moveStatements, statementReferences] at hnodup ⊢
    have hparts := List.nodup_append.mp hnodup
    refine ((s.settable hthins (fun _ => hkept) h.1 hparts.1).and hnodup
      (settable_statements rest (hthins.scopesAfter (fun _ => hkept) (.ofIds ι)) hkept h.2
        hparts.2.1)
      fun _ _ hs hagree => Stmt.placed_of_agree (fun _ hid => hid) _ hs hagree).imp ?_
    rintro table ⟨hs, hrest⟩
    rw [PlacedStatements]
    exact ⟨hs, hrest⟩

theorem settable_methods : ∀ (methods : List FunctionDecl) {marks : List Bool}
    {L R : List Scope}, Thins marks L R → PlacedMethods left kept L methods →
    (methodReferences (moveMethods (.ofIds ι) methods)).Nodup →
    Settable (methodReferences (moveMethods (.ofIds ι) methods)) fun table =>
      PlacedMethods table (fun _ => True) R (moveMethods (.ofIds ι) methods)
  | [], _, _, _, _, _, _ => by
    refine settable_nil fun table => ?_
    rw [moveMethods, PlacedMethods]
    trivial
  | method :: rest, _, _, _, hthins, h, hnodup => by
    rw [PlacedMethods] at h
    rw [moveMethods, methodReferences] at hnodup ⊢
    have hparts := List.nodup_append.mp hnodup
    refine ((method.settable hthins h.1 hparts.1).and hnodup
      (settable_methods rest hthins h.2 hparts.2.1)
      fun _ _ hmethod hagree => FunctionDecl.placed_of_agree (fun _ hid => hid) _ hmethod hagree).imp ?_
    rintro table ⟨hmethod, hrest⟩
    rw [PlacedMethods]
    exact ⟨hmethod, hrest⟩

end

end Placing

end Treewalk
