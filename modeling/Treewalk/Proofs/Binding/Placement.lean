import Treewalk.Proofs.Binding.Walk

/-!
# References in their places

**A tree is placed in scopes if a table gives each of its references the hop count that the
scopes give it, and no reference reads a name before it is ready.**  This is what a run relies
on.  It speaks of one table for the whole tree, and not of a walk that is still collecting it.

The hop counts inside functions are kept after a run; those outside functions may be dropped.
-/

namespace Treewalk

/-! ### Names in scopes -/

/-- The hop count of a name. -/
def hopsIn (scopes : List Scope) (text : String) : Option Nat :=
  scopes.findIdx? fun scope => scope.contains text

/-- The scope a number of hops outward holds a name, which is ready for use. -/
def Defines (scopes : List Scope) (hops : Nat) (text : String) : Prop :=
  ∃ scope, scopes[hops]? = some scope ∧ scope[text]? = some .defined

/-- All names in the scopes are ready for use. -/
def AllDefined (scopes : List Scope) : Prop :=
  ∀ scope ∈ scopes, ∀ (text : String) (standing : Standing), scope[text]? = some standing →
    standing = .defined

/-- In a class with a superclass, `super` is found, and `this` one scope further inside. -/
def Anchored (around : Surroundings) (scopes : List Scope) : Prop :=
  around.inClass = .derived → ∃ inner, hopsIn scopes "super" = some (inner + 1)
    ∧ Defines scopes (inner + 1) "super" ∧ Defines scopes inner "this"

theorem hopsIn_cons_of_not_mem {scope : Scope} {text : String} (h : text ∉ scope)
    (outer : List Scope) : hopsIn (scope :: outer) text = (hopsIn outer text).map (· + 1) := by
  rw [hopsIn, List.findIdx?_cons, if_neg fun hc => h (Std.ExtTreeMap.contains_iff_mem.mp hc)]
  rfl

theorem hopsIn_cons_of_mem {scope : Scope} {text : String} (h : text ∈ scope)
    (outer : List Scope) : hopsIn (scope :: outer) text = some 0 := by
  rw [hopsIn, List.findIdx?_cons, Std.ExtTreeMap.contains_iff_mem.mpr h]
  rfl

theorem defines_cons_succ {scope : Scope} {outer : List Scope} {hops : Nat} {text : String} :
    Defines (scope :: outer) (hops + 1) text ↔ Defines outer hops text := by
  simp only [Defines, List.getElem?_cons_succ]

/-- The scope that the hop count leads to holds the name. -/
theorem exists_of_hopsIn {scopes : List Scope} {text : String} {hops : Nat}
    (h : hopsIn scopes text = some hops) : ∃ scope, scopes[hops]? = some scope ∧ text ∈ scope := by
  obtain ⟨hlt, hmem, -⟩ := List.findIdx?_eq_some_iff_getElem.mp h
  exact ⟨scopes[hops], List.getElem?_eq_getElem hlt, Std.ExtTreeMap.contains_iff_mem.mp hmem⟩

theorem mem_putScope {scope : Scope} {text other : String} {standing : Standing}
    (h : other ≠ text) : other ∈ scope.insert text standing ↔ other ∈ scope := by
  simp [Std.ExtTreeMap.mem_insert, h.symm]

theorem hopsIn_putName {text other : String} (h : other ≠ text) (standing : Standing)
    (scopes : List Scope) : hopsIn (putName text standing scopes) other = hopsIn scopes other := by
  rcases scopes with _ | ⟨scope, outer⟩
  · rfl
  · rw [putName_cons]
    by_cases hmem : other ∈ scope
    · rw [hopsIn_cons_of_mem hmem, hopsIn_cons_of_mem ((mem_putScope h).mpr hmem)]
    · rw [hopsIn_cons_of_not_mem hmem, hopsIn_cons_of_not_mem fun hm => hmem ((mem_putScope h).mp hm)]

theorem Defines.putName {scopes : List Scope} {hops : Nat} {text other : String}
    (hd : Defines scopes hops other) (h : other ≠ text) (standing : Standing) :
    Defines (putName text standing scopes) hops other := by
  obtain ⟨found, hfound, hdefined⟩ := hd
  rcases scopes with _ | ⟨scope, outer⟩
  · exact ⟨found, hfound, hdefined⟩
  · rcases hops with _ | hops
    · cases hfound
      refine ⟨found.insert text standing, rfl, ?_⟩
      rw [Std.ExtTreeMap.getElem?_insert, if_neg (by simpa using h.symm)]
      exact hdefined
    · exact ⟨found, hfound, hdefined⟩

theorem AllDefined.putName {scopes : List Scope} (h : AllDefined scopes) (text : String) :
    AllDefined (putName text .defined scopes) := by
  rcases scopes with _ | ⟨scope, outer⟩
  · exact h
  · intro found hfound other standing hother
    rcases List.mem_cons.mp hfound with rfl | houter
    · rw [Std.ExtTreeMap.getElem?_insert] at hother
      split at hother
      · exact (Option.some.inj hother).symm
      · exact h scope List.mem_cons_self other standing hother
    · exact h found (List.mem_cons_of_mem _ houter) other standing hother

theorem AllDefined.cons {scope : Scope} {outer : List Scope}
    (hscope : ∀ (text : String) (standing : Standing), scope[text]? = some standing →
      standing = .defined)
    (h : AllDefined outer) : AllDefined (scope :: outer) := by
  intro found hfound
  rcases List.mem_cons.mp hfound with rfl | houter
  · exact hscope
  · exact h found houter

theorem AllDefined.tail {scopes : List Scope} (h : AllDefined scopes) : AllDefined scopes.tail :=
  fun scope hscope => h scope (List.mem_of_mem_tail hscope)

theorem Anchored.putName {around : Surroundings} {scopes : List Scope} (h : Anchored around scopes)
    {text : String} (htext : IsUnreserved text) (standing : Standing) :
    Anchored around (putName text standing scopes) := by
  intro hderived
  obtain ⟨inner, hhops, hsuper, hthis⟩ := h hderived
  refine ⟨inner, ?_, hsuper.putName htext.ne_super.symm standing,
    hthis.putName htext.ne_this.symm standing⟩
  rw [hopsIn_putName htext.ne_super.symm, hhops]

theorem Anchored.cons {around : Surroundings} {scope : Scope} {outer : List Scope}
    (h : Anchored around outer) (hscope : "super" ∉ scope) : Anchored around (scope :: outer) := by
  intro hderived
  obtain ⟨inner, hhops, hsuper, hthis⟩ := h hderived
  refine ⟨inner + 1, ?_, defines_cons_succ.mpr hsuper, defines_cons_succ.mpr hthis⟩
  rw [hopsIn_cons_of_not_mem hscope, hhops]
  rfl

theorem getElem?_paramScope (params : List Name) (text : String) :
    (paramScope params)[text]? = if ∃ param ∈ params, param.text = text then some .defined else none := by
  suffices h : ∀ scope : Scope,
      (params.foldl (fun scope param => scope.insert param.text .defined) scope)[text]?
        = if ∃ param ∈ params, param.text = text then some .defined else scope[text]? from h ∅
  induction params with
  | nil => simp
  | cons param params ih =>
    intro scope
    rw [List.foldl_cons, ih, Std.ExtTreeMap.getElem?_insert]
    by_cases hrest : ∃ param ∈ params, param.text = text
    · rw [if_pos hrest, if_pos]
      obtain ⟨found, hfound, htext⟩ := hrest
      exact ⟨found, List.mem_cons_of_mem _ hfound, htext⟩
    · rw [if_neg hrest]
      by_cases htext : param.text = text
      · simp [htext]
      · simp_all

theorem allDefined_paramScope (params : List Name) (text : String) (standing : Standing)
    (h : (paramScope params)[text]? = some standing) : standing = .defined := by
  rw [getElem?_paramScope] at h
  split at h
  · exact (Option.some.inj h).symm
  · cases h

theorem super_not_mem_paramScope {params : List Name}
    (h : ∀ param ∈ params, IsUnreserved param.text) : "super" ∉ paramScope params := by
  rw [← Std.ExtTreeMap.isSome_getElem?_iff_mem, getElem?_paramScope, if_neg]
  · simp
  · rintro ⟨param, hparam, htext⟩
    exact (h param hparam).ne_super htext

theorem allDefined_methodScopes (derived : Bool) {scopes : List Scope} (h : AllDefined scopes) :
    AllDefined (methodScopes derived scopes) := by
  have hsingle : ∀ (name text : String) (standing : Standing),
      ((∅ : Scope).insert name .defined)[text]? = some standing → standing = .defined := by
    intro name text standing hfound
    rw [Std.ExtTreeMap.getElem?_insert] at hfound
    split at hfound
    · exact (Option.some.inj hfound).symm
    · simp at hfound
  refine AllDefined.cons (hsingle "this") ?_
  rcases derived with _ | _
  · exact h
  · exact AllDefined.cons (hsingle "super") h

theorem anchored_methodScopes (around : Surroundings) (derived : Bool) (scopes : List Scope) :
    Anchored { around with inClass := if derived then .derived else .plain }
      (methodScopes derived scopes) := by
  intro hkind
  rcases derived with _ | _
  · cases hkind
  · refine ⟨0, ?_, ⟨superScope, rfl, by simp [superScope]⟩, ⟨thisScope, rfl, by simp [thisScope]⟩⟩
    show hopsIn (thisScope :: superScope :: scopes) "super" = some 1
    rw [hopsIn_cons_of_not_mem (by simp [thisScope]), hopsIn_cons_of_mem (by simp [superScope])]
    rfl

/-! ### The judgement -/

/-- A reference that is read. -/
structure ReadPlaced (table : HopTable) (scopes : List Scope) (id : Nat) (text : String) :
    Prop where
  hops : table[id]? = hopsIn scopes text
  ready : ∀ hops, hopsIn scopes text = some hops → Defines scopes hops text

/-- A reference through `super`, which also reads `this`. -/
def SuperPlaced (table : HopTable) (scopes : List Scope) (id : Nat) : Prop :=
  ∃ inner, table[id]? = some (inner + 1) ∧ hopsIn scopes "super" = some (inner + 1)
    ∧ Defines scopes (inner + 1) "super" ∧ Defines scopes inner "this"

mutual

/-- The references of an expression are in their places. -/
def Expr.Placed (table : HopTable) (scopes : List Scope) : Expr → Prop
  | .literal _ => True
  | .grouping inner => inner.Placed table scopes
  | .unary _ _ operand => operand.Placed table scopes
  | .binary _ _ left right => left.Placed table scopes ∧ right.Placed table scopes
  | .logical _ _ left right => left.Placed table scopes ∧ right.Placed table scopes
  | .variable name id => ReadPlaced table scopes id name.text
  | .assign name id value => value.Placed table scopes ∧ table[id]? = hopsIn scopes name.text
  | .call callee _ args => callee.Placed table scopes ∧ PlacedArguments table scopes args
  | .get object _ => object.Placed table scopes
  | .set object _ value => object.Placed table scopes ∧ value.Placed table scopes
  | .this _ id => ReadPlaced table scopes id "this"
  | .super _ id _ => SuperPlaced table scopes id

/-- The references of arguments are in their places. -/
def PlacedArguments (table : HopTable) (scopes : List Scope) : List Expr → Prop
  | [] => True
  | argument :: args => argument.Placed table scopes ∧ PlacedArguments table scopes args

end

/-- The reference of a class to its superclass is in its place.  The class is not declared yet
    when the reference is read, so it must have another name. -/
def SuperclassPlaced (table : HopTable) (scopes : List Scope) (name : Name)
    (superclass : Option Reference) : Prop :=
  ∀ parent, superclass = some parent →
    parent.name.text ≠ name.text ∧ ReadPlaced table scopes parent.id parent.name.text

mutual

/-- The references of a statement are in their places. -/
def Stmt.Placed (table : HopTable) (kept : Nat → Prop) (scopes : List Scope) : Stmt → Prop
  | .expression value => value.Placed table scopes
  | .print value => value.Placed table scopes
  | .var name initializer => ∀ value, initializer = some value →
    value.Placed table (putName name.text .declared scopes)
  | .block body => PlacedStatements table kept (∅ :: scopes) body
  | .ifElse condition thenBranch none =>
    condition.Placed table scopes
      ∧ thenBranch.Placed table kept scopes ∧ thenBranch.isDeclaration = false
  | .ifElse condition thenBranch (some elseBranch) =>
    condition.Placed table scopes
      ∧ (thenBranch.Placed table kept scopes ∧ thenBranch.isDeclaration = false)
      ∧ elseBranch.Placed table kept scopes ∧ elseBranch.isDeclaration = false
  | .whileLoop condition body =>
    condition.Placed table scopes
      ∧ body.Placed table kept scopes ∧ body.isDeclaration = false
  | .function declaration =>
    declaration.Placed table kept (putName declaration.name.text .defined scopes)
  | .return _ value => ∀ result, value = some result → result.Placed table scopes
  | .class name superclass methods =>
    SuperclassPlaced table scopes name superclass
      ∧ PlacedMethods table kept
        (methodScopes superclass.isSome (putName name.text .defined scopes)) methods

/-- The references of a function are in their places, and their hop counts are kept. -/
def FunctionDecl.Placed (table : HopTable) (kept : Nat → Prop) (scopes : List Scope) :
    FunctionDecl → Prop
  | ⟨_, params, body⟩ =>
    (∀ id ∈ statementReferences body, kept id)
      ∧ PlacedStatements table kept (paramScope params :: scopes) body

/-- The references of a list of statements are in their places. -/
def PlacedStatements (table : HopTable) (kept : Nat → Prop) (scopes : List Scope) :
    List Stmt → Prop
  | [] => True
  | s :: rest => s.Placed table kept scopes ∧ PlacedStatements table kept (s.scopesAfter scopes) rest

/-- The references of methods are in their places. -/
def PlacedMethods (table : HopTable) (kept : Nat → Prop) (scopes : List Scope) :
    List FunctionDecl → Prop
  | [] => True
  | method :: rest => method.Placed table kept scopes ∧ PlacedMethods table kept scopes rest

end

theorem PlacedMethods.of_mem {table : HopTable} {kept : Nat → Prop} {scopes : List Scope}
    {methods : List FunctionDecl} (h : PlacedMethods table kept scopes methods)
    {method : FunctionDecl} (hmem : method ∈ methods) : method.Placed table kept scopes := by
  induction methods with
  | nil => cases hmem
  | cons first rest ih =>
    rw [PlacedMethods] at h
    rcases List.mem_cons.mp hmem with rfl | hrest
    · exact h.1
    · exact ih h.2 hrest

/-! ### Other tables -/

section Tables

variable {table other : HopTable} {kept more : Nat → Prop}

theorem ReadPlaced.of_agree {scopes : List Scope} {id : Nat} {text : String}
    (h : ReadPlaced table scopes id text) (hagree : table[id]? = other[id]?) :
    ReadPlaced other scopes id text where
  hops := hagree ▸ h.hops
  ready := h.ready

mutual

/-- Only the hop counts of its own references matter for an expression. -/
theorem Expr.placed_of_agree {scopes : List Scope} : ∀ (e : Expr), e.Placed table scopes →
    (∀ id ∈ e.references, table[id]? = other[id]?) → e.Placed other scopes
  | .literal _, _, _ => trivial
  | .grouping inner, h, hagree => inner.placed_of_agree h hagree
  | .unary _ _ operand, h, hagree => operand.placed_of_agree h hagree
  | .binary _ _ left right, h, hagree =>
    ⟨left.placed_of_agree h.1 fun id hid => hagree id (List.mem_append_left _ hid),
      right.placed_of_agree h.2 fun id hid => hagree id (List.mem_append_right _ hid)⟩
  | .logical _ _ left right, h, hagree =>
    ⟨left.placed_of_agree h.1 fun id hid => hagree id (List.mem_append_left _ hid),
      right.placed_of_agree h.2 fun id hid => hagree id (List.mem_append_right _ hid)⟩
  | .variable _ id, h, hagree => ReadPlaced.of_agree h (hagree id (List.mem_singleton_self id))
  | .assign _ id value, h, hagree =>
    ⟨value.placed_of_agree h.1 fun id hid => hagree id (List.mem_append_left _ hid),
      (hagree id (List.mem_append_right _ (List.mem_singleton_self id))).symm.trans h.2⟩
  | .call callee _ args, h, hagree =>
    ⟨callee.placed_of_agree h.1 fun id hid => hagree id (List.mem_append_left _ hid),
      placedArguments_of_agree args h.2 fun id hid => hagree id (List.mem_append_right _ hid)⟩
  | .get object _, h, hagree => object.placed_of_agree h hagree
  | .set object _ value, h, hagree =>
    ⟨object.placed_of_agree h.1 fun id hid => hagree id (List.mem_append_left _ hid),
      value.placed_of_agree h.2 fun id hid => hagree id (List.mem_append_right _ hid)⟩
  | .this _ id, h, hagree => ReadPlaced.of_agree h (hagree id (List.mem_singleton_self id))
  | .super _ id _, h, hagree => by
    obtain ⟨inner, htable, hplaces⟩ := h
    exact ⟨inner, (hagree id (List.mem_singleton_self id)).symm.trans htable, hplaces⟩

theorem placedArguments_of_agree {scopes : List Scope} : ∀ (args : List Expr),
    PlacedArguments table scopes args →
    (∀ id ∈ argumentReferences args, table[id]? = other[id]?) → PlacedArguments other scopes args
  | [], _, _ => trivial
  | argument :: args, h, hagree =>
    ⟨argument.placed_of_agree h.1 fun id hid => hagree id (List.mem_append_left _ hid),
      placedArguments_of_agree args h.2 fun id hid => hagree id (List.mem_append_right _ hid)⟩

end

theorem SuperclassPlaced.of_agree {scopes : List Scope} {name : Name}
    {superclass : Option Reference} (h : SuperclassPlaced table scopes name superclass)
    (hagree : ∀ id ∈ superclassReferences superclass, table[id]? = other[id]?) :
    SuperclassPlaced other scopes name superclass := by
  rintro parent rfl
  obtain ⟨hne, hread⟩ := h parent rfl
  exact ⟨hne, hread.of_agree (hagree parent.id (List.mem_singleton_self _))⟩

mutual

/-- Only the hop counts of its own references matter for a statement. -/
theorem Stmt.placed_of_agree (hkept : ∀ id, kept id → more id) {scopes : List Scope} :
    ∀ (s : Stmt), s.Placed table kept scopes →
    (∀ id ∈ s.references, table[id]? = other[id]?) → s.Placed other more scopes
  | .expression value, h, hagree => value.placed_of_agree h hagree
  | .print value, h, hagree => value.placed_of_agree h hagree
  | .var _ initializer, h, hagree => by
    rw [Stmt.Placed] at h ⊢
    rintro value rfl
    exact value.placed_of_agree (h value rfl) hagree
  | .block body, h, hagree => by
    rw [Stmt.Placed] at h ⊢
    exact placedStatements_of_agree hkept body h hagree
  | .ifElse condition thenBranch none, h, hagree => by
    rw [Stmt.Placed] at h ⊢
    rw [Stmt.references] at hagree
    exact ⟨condition.placed_of_agree h.1 fun id hid => hagree id (List.mem_append_left _ hid),
      thenBranch.placed_of_agree hkept h.2.1 fun id hid => hagree id (List.mem_append_right _ hid),
      h.2.2⟩
  | .ifElse condition thenBranch (some elseBranch), h, hagree => by
    rw [Stmt.Placed] at h ⊢
    rw [Stmt.references] at hagree
    have hbranches : ∀ id ∈ thenBranch.references ++ elseBranch.references,
        table[id]? = other[id]? := fun id hid => hagree id (List.mem_append_right _ hid)
    exact ⟨condition.placed_of_agree h.1 fun id hid => hagree id (List.mem_append_left _ hid),
      ⟨thenBranch.placed_of_agree hkept h.2.1.1 fun id hid => hbranches id (List.mem_append_left _ hid),
        h.2.1.2⟩,
      elseBranch.placed_of_agree hkept h.2.2.1 fun id hid => hbranches id (List.mem_append_right _ hid),
      h.2.2.2⟩
  | .whileLoop condition body, h, hagree => by
    rw [Stmt.Placed] at h ⊢
    rw [Stmt.references] at hagree
    exact ⟨condition.placed_of_agree h.1 fun id hid => hagree id (List.mem_append_left _ hid),
      body.placed_of_agree hkept h.2.1 fun id hid => hagree id (List.mem_append_right _ hid),
      h.2.2⟩
  | .function declaration, h, hagree => by
    rw [Stmt.Placed] at h ⊢
    exact declaration.placed_of_agree hkept h hagree
  | .return _ value, h, hagree => by
    rw [Stmt.Placed] at h ⊢
    rintro result rfl
    exact result.placed_of_agree (h result rfl) hagree
  | .class name superclass methods, h, hagree => by
    rw [Stmt.Placed] at h ⊢
    rw [Stmt.references] at hagree
    exact ⟨h.1.of_agree fun id hid => hagree id (List.mem_append_left _ hid),
      placedMethods_of_agree hkept methods h.2 fun id hid => hagree id (List.mem_append_right _ hid)⟩

theorem FunctionDecl.placed_of_agree (hkept : ∀ id, kept id → more id) {scopes : List Scope} :
    ∀ (f : FunctionDecl), f.Placed table kept scopes →
    (∀ id ∈ f.references, table[id]? = other[id]?) → f.Placed other more scopes
  | ⟨_, params, body⟩, h, hagree => by
    rw [FunctionDecl.Placed] at h ⊢
    exact ⟨fun id hid => hkept id (h.1 id hid), placedStatements_of_agree hkept body h.2 hagree⟩

theorem placedStatements_of_agree (hkept : ∀ id, kept id → more id) {scopes : List Scope} :
    ∀ (body : List Stmt), PlacedStatements table kept scopes body →
    (∀ id ∈ statementReferences body, table[id]? = other[id]?) →
    PlacedStatements other more scopes body
  | [], _, _ => trivial
  | s :: rest, h, hagree => by
    rw [PlacedStatements] at h ⊢
    rw [statementReferences] at hagree
    exact ⟨s.placed_of_agree hkept h.1 fun id hid => hagree id (List.mem_append_left _ hid),
      placedStatements_of_agree hkept rest h.2 fun id hid => hagree id (List.mem_append_right _ hid)⟩

theorem placedMethods_of_agree (hkept : ∀ id, kept id → more id) {scopes : List Scope} :
    ∀ (methods : List FunctionDecl), PlacedMethods table kept scopes methods →
    (∀ id ∈ methodReferences methods, table[id]? = other[id]?) →
    PlacedMethods other more scopes methods
  | [], _, _ => trivial
  | method :: rest, h, hagree => by
    rw [PlacedMethods] at h ⊢
    rw [methodReferences] at hagree
    exact ⟨method.placed_of_agree hkept h.1 fun id hid => hagree id (List.mem_append_left _ hid),
      placedMethods_of_agree hkept rest h.2 fun id hid => hagree id (List.mem_append_right _ hid)⟩

end

theorem FunctionDecl.Placed.keeps {scopes : List Scope} {f : FunctionDecl}
    (h : f.Placed table kept scopes) : ∀ id ∈ f.references, kept id := by
  rcases f with ⟨name, params, body⟩
  rw [FunctionDecl.Placed] at h
  exact h.1

end Tables

end Treewalk
