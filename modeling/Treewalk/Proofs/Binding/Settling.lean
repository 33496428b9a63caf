import Treewalk.Proofs.Binding.Placement

/-!
# Walks put references in their places

**A walk that ends without errors leaves a table for which the tree is placed.**  Two things are
carried along.  Around every statement all names are ready, and around an expression all but
one; and in a class with a superclass, `super` is found one scope outside `this`.

What a walk finds about one part of a tree stays while it goes on, since the numbers of the
other parts are different ones.
-/

namespace Treewalk

/-! ### Findings that stay -/

/-- The findings of a walk about its own references are new, and the table has them; those that
    are not to be dropped are kept. -/
structure Settles (table : HopTable) (kept : Nat → Prop) (ids : List Nat) (b later : Bindings) :
    Prop where
  nodup : ids.Nodup
  newHops : ∀ id ∈ ids, b.hops[id]? = none
  newTop : ∀ id ∈ ids, id ∉ b.topLevel
  agrees : ∀ id ∈ ids, table[id]? = later.hops[id]?
  keeps : ∀ id ∈ ids, id ∉ later.topLevel → kept id

namespace Settles

variable {table : HopTable} {kept : Nat → Prop} {around inner : Surroundings}
variable {ids more : List Nat} {b middle later : Bindings}

/-- What holds of a walk holds of its first part. -/
theorem first (h : Settles table kept (ids ++ more) b later)
    (hlater : middle.Extends around more later) : Settles table kept ids b middle := by
  have hnot : ∀ id ∈ ids, id ∉ more := fun id hid hmore =>
    (List.nodup_append.mp h.nodup).2.2 id hid id hmore rfl
  refine ⟨(List.nodup_append.mp h.nodup).1, fun id hid => ?_, fun id hid => ?_, fun id hid => ?_,
    fun id hid htop => ?_⟩
  · exact h.newHops id (List.mem_append_left _ hid)
  · exact h.newTop id (List.mem_append_left _ hid)
  · rw [h.agrees id (List.mem_append_left _ hid), hlater.hops id (hnot id hid)]
  · refine h.keeps id (List.mem_append_left _ hid) fun hlist => ?_
    rcases hlater.topLevel id hlist with hmiddle | ⟨hmore, -⟩
    · exact htop hmiddle
    · exact hnot id hid hmore

/-- What holds of a walk holds of its second part. -/
theorem second (h : Settles table kept (ids ++ more) b later)
    (hfirst : b.Extends around ids middle) : Settles table kept more middle later := by
  have hnot : ∀ id ∈ more, id ∉ ids := fun id hmore hid =>
    (List.nodup_append.mp h.nodup).2.2 id hid id hmore rfl
  refine ⟨(List.nodup_append.mp h.nodup).2.1, fun id hid => ?_, fun id hid => ?_, fun id hid => ?_,
    fun id hid htop => ?_⟩
  · rw [hfirst.hops id (hnot id hid), h.newHops id (List.mem_append_right _ hid)]
  · intro hlist
    rcases hfirst.topLevel id hlist with hb | ⟨hids, -⟩
    · exact h.newTop id (List.mem_append_right _ hid) hb
    · exact hnot id hid hids
  · exact h.agrees id (List.mem_append_right _ hid)
  · exact h.keeps id (List.mem_append_right _ hid) htop

/-- The walk goes on without finding anything. -/
theorem before (h : Settles table kept ids b later) (hlater : middle.Extends around [] later) :
    Settles table kept ids b middle := by
  rw [← List.append_nil ids] at h
  exact h.first hlater

/-- The walk began without finding anything. -/
theorem after (h : Settles table kept ids b later) (hfirst : b.Extends around [] middle) :
    Settles table kept ids middle later := by
  rw [← List.nil_append ids] at h
  exact h.second hfirst

/-- Inside functions everything is kept. -/
theorem keeps_inside (h : Settles table kept ids b later) (hext : b.Extends inner ids later)
    (hinside : inner.inFunction ≠ .none) : ∀ id ∈ ids, kept id := fun id hid =>
  h.keeps id hid fun hlist => h.newTop id hid (hext.topLevel_subset hinside hlist)

end Settles

/-! ### Single references -/

/-- The table has the hop count of a reference that was recorded. -/
theorem hops_of_settles {table : HopTable} {kept : Nat → Prop} {around : Surroundings}
    {id : Nat} {text : String} {scopes : List Scope} {b : Bindings} (hscopes : b.scopes = scopes)
    (hset : Settles table kept [id] b (b.refer around id text)) :
    table[id]? = hopsIn scopes text := by
  subst hscopes
  have hid : id ∈ [id] := List.mem_singleton_self id
  have hnew := hset.newHops id hid
  rw [hset.agrees id hid, Bindings.refer]
  unfold hopsIn
  split
  · rename_i hnone
    rw [hnew, hnone]
  · rename_i hops hsome
    rw [hsome]
    simp

/-- Where an expression is read, only the innermost scope may hold a name that is not ready, and
    that name is not `this`. -/
structure Legible (around : Surroundings) (scopes : List Scope) : Prop where
  tail : AllDefined scopes.tail
  this : ∀ scope, scopes.head? = some scope → scope["this"]? ≠ some .declared
  anchored : Anchored around scopes

theorem AllDefined.legible {around : Surroundings} {scopes : List Scope} (h : AllDefined scopes)
    (hanchor : Anchored around scopes) : Legible around scopes where
  tail := h.tail
  this scope hscope hdeclared := by
    cases h scope (List.mem_of_mem_head? hscope) "this" .declared hdeclared
  anchored := hanchor

/-- The initializer of a variable may be read while the variable is not ready. -/
theorem AllDefined.legible_declared {around : Surroundings} {scopes : List Scope}
    (h : AllDefined scopes) (hanchor : Anchored around scopes) {text : String}
    (htext : IsUnreserved text) : Legible around (Treewalk.putName text .declared scopes) where
  tail := by
    rcases scopes with _ | ⟨scope, outer⟩
    · exact h
    · exact h.tail
  this found hfound hdeclared := by
    rcases scopes with _ | ⟨scope, outer⟩
    · cases hfound
    · cases hfound
      rw [Std.ExtTreeMap.getElem?_insert, if_neg (by simpa using htext.ne_this)] at hdeclared
      cases h scope List.mem_cons_self "this" .declared hdeclared
  anchored := hanchor.putName htext .declared

/-- If the innermost scope has no name that waits for its initializer, every name that is found
    is ready. -/
theorem defines_of_hopsIn {scopes : List Scope} {text : String} {hops : Nat}
    (htail : AllDefined scopes.tail)
    (hhead : ∀ scope, scopes.head? = some scope → scope[text]? ≠ some .declared)
    (h : hopsIn scopes text = some hops) : Defines scopes hops text := by
  obtain ⟨scope, hscope, hmem⟩ := exists_of_hopsIn h
  refine ⟨scope, hscope, ?_⟩
  rcases hstanding : scope[text]? with _ | standing
  · rw [← Std.ExtTreeMap.isSome_getElem?_iff_mem, hstanding] at hmem
    cases hmem
  · rcases scopes with _ | ⟨inner, outer⟩
    · cases hscope
    · rcases hops with _ | hops
      · cases hscope
        rcases standing with _ | _
        · exact absurd hstanding (hhead scope rfl)
        · rfl
      · have hmem : scope ∈ outer := List.mem_of_getElem? hscope
        rw [htail scope hmem text standing hstanding]

theorem noteIf_errors_eq_nil {b : Bindings} {condition : Bool} {site : Name} {fault : BindingFault}
    (h : (b.noteIf condition site fault).errors = []) : condition = false := by
  rcases condition with _ | _
  · rfl
  · simp [Bindings.noteIf, Bindings.note] at h

theorem refer_errors (b : Bindings) (around : Surroundings) (id : Nat) (text : String) :
    (b.refer around id text).errors = b.errors := by
  unfold Bindings.refer
  split <;> rfl

/-- A variable that is read without an error is in its place. -/
theorem readPlaced_of_read {table : HopTable} {kept : Nat → Prop} {around : Surroundings}
    {id : Nat} {name : Name} {scopes : List Scope} {b : Bindings} (hscopes : b.scopes = scopes)
    (hset : Settles table kept [id] b (b.read around name id))
    (herrors : (b.read around name id).errors = []) (htail : AllDefined scopes.tail) :
    ReadPlaced table scopes id name.text := by
  have hnote := b.extends_noteIf around (b.isUnready name.text) name .ownInitializer
  refine ⟨hops_of_settles (by rw [Bindings.scopes_noteIf, hscopes]) (hset.after hnote), ?_⟩
  rw [Bindings.read, refer_errors] at herrors
  have hready := noteIf_errors_eq_nil herrors
  intro hops
  refine defines_of_hopsIn htail fun scope hscope hdeclared => ?_
  rw [Bindings.isUnready, hscopes, hscope] at hready
  simp [hdeclared] at hready

theorem checkSuper_errors_eq_nil {b : Bindings} {around : Surroundings} {site : Name}
    (h : (b.checkSuper around site).errors = []) : around.inClass = .derived := by
  unfold Bindings.checkSuper at h
  split at h
  · simp [Bindings.note] at h
  · simp [Bindings.note] at h
  · assumption

/-! ### Trees -/

open Bindings

section Walks

variable {table : HopTable} {kept : Nat → Prop}

mutual

/-- An expression that is walked without errors is placed in the scopes of the walk.  Only the
    innermost scope may hold a name that is not ready. -/
theorem Expr.placed_of_bindNames {around : Surroundings} {scopes : List Scope}
    (hlegible : Legible around scopes) : ∀ (e : Expr)
    (b : Bindings), b.scopes = scopes →
    Settles table kept e.references b (e.bindNames around b) →
    (e.bindNames around b).errors = [] → e.Placed table scopes
  | .literal _, _, _, _, _ => trivial
  | .grouping inner, b, hb, hset, herr => inner.placed_of_bindNames hlegible b hb hset herr
  | .unary _ _ operand, b, hb, hset, herr =>
    operand.placed_of_bindNames hlegible b hb hset herr
  | .binary _ _ left right, b, hb, hset, herr => by
    have hleft := left.extends_bindNames around b
    have hright := right.extends_bindNames around (left.bindNames around b)
    refine ⟨left.placed_of_bindNames hlegible b hb (hset.first hright)
      (hright.errors_eq_nil herr), ?_⟩
    exact right.placed_of_bindNames hlegible _ (by rw [Expr.scopes_bindNames, hb])
      (hset.second hleft) herr
  | .logical _ _ left right, b, hb, hset, herr => by
    have hleft := left.extends_bindNames around b
    have hright := right.extends_bindNames around (left.bindNames around b)
    refine ⟨left.placed_of_bindNames hlegible b hb (hset.first hright)
      (hright.errors_eq_nil herr), ?_⟩
    exact right.placed_of_bindNames hlegible _ (by rw [Expr.scopes_bindNames, hb])
      (hset.second hleft) herr
  | .variable name id, b, hb, hset, herr => readPlaced_of_read hb hset herr hlegible.tail
  | .assign name id value, b, hb, hset, herr => by
    have hvalue := value.extends_bindNames around b
    have hrefer := (value.bindNames around b).extends_refer around id name.text
    refine ⟨value.placed_of_bindNames hlegible b hb (hset.first hrefer)
      (hrefer.errors_eq_nil herr), ?_⟩
    exact hops_of_settles (by rw [Expr.scopes_bindNames, hb]) (hset.second hvalue)
  | .call callee _ args, b, hb, hset, herr => by
    have hcallee := callee.extends_bindNames around b
    have hargs := extends_bindArguments around args (callee.bindNames around b)
    refine ⟨callee.placed_of_bindNames hlegible b hb (hset.first hargs)
      (hargs.errors_eq_nil herr), ?_⟩
    exact placedArguments_of_bindArguments hlegible args _
      (by rw [Expr.scopes_bindNames, hb]) (hset.second hcallee) herr
  | .get object _, b, hb, hset, herr => object.placed_of_bindNames hlegible b hb hset herr
  | .set object _ value, b, hb, hset, herr => by
    have hobject := object.extends_bindNames around b
    have hvalue := value.extends_bindNames around (object.bindNames around b)
    refine ⟨object.placed_of_bindNames hlegible b hb (hset.first hvalue)
      (hvalue.errors_eq_nil herr), ?_⟩
    exact value.placed_of_bindNames hlegible _ (by rw [Expr.scopes_bindNames, hb])
      (hset.second hobject) herr
  | .this line id, b, hb, hset, _ => by
    have hnote := b.extends_noteIf around (around.inClass = .none) ⟨"this", line⟩ .thisOutsideClass
    refine ⟨hops_of_settles (by rw [Bindings.scopes_noteIf, hb]) (hset.after hnote), ?_⟩
    exact fun hops => defines_of_hopsIn hlegible.tail hlegible.this
  | .super line id _, b, hb, hset, herr => by
    have hcheck := b.extends_checkSuper around ⟨"super", line⟩
    have hhops := hops_of_settles (by rw [Bindings.scopes_checkSuper, hb]) (hset.after hcheck)
    rw [Expr.bindNames, refer_errors] at herr
    obtain ⟨inner, hsuper, hplaces⟩ := hlegible.anchored (checkSuper_errors_eq_nil herr)
    exact ⟨inner, by rw [hhops, hsuper], hsuper, hplaces⟩

theorem placedArguments_of_bindArguments {around : Surroundings} {scopes : List Scope}
    (hlegible : Legible around scopes) : ∀ (args : List Expr)
    (b : Bindings), b.scopes = scopes →
    Settles table kept (argumentReferences args) b (bindArguments around args b) →
    (bindArguments around args b).errors = [] → PlacedArguments table scopes args
  | [], _, _, _, _ => trivial
  | argument :: args, b, hb, hset, herr => by
    have hargument := argument.extends_bindNames around b
    have hargs := extends_bindArguments around args (argument.bindNames around b)
    refine ⟨argument.placed_of_bindNames hlegible b hb (hset.first hargs)
      (hargs.errors_eq_nil herr), ?_⟩
    exact placedArguments_of_bindArguments hlegible args _
      (by rw [Expr.scopes_bindNames, hb]) (hset.second hargument) herr

end

theorem placed_of_bindOptional {around : Surroundings} {scopes : List Scope}
    (hlegible : Legible around scopes) {value : Option Expr} {b : Bindings}
    (hb : b.scopes = scopes)
    (hset : Settles table kept (optionalReferences value) b (bindOptional around value b))
    (herr : (bindOptional around value b).errors = []) :
    ∀ result, value = some result → result.Placed table scopes := by
  rintro result rfl
  exact result.placed_of_bindNames hlegible b hb hset herr

/-- The superclass is read with the name of the class declared already.  As the two names differ,
    it is the same as before. -/
theorem superclassPlaced_of_classHead {around : Surroundings} {scopes : List Scope}
    (hdefined : AllDefined scopes) {name : Name} {superclass : Option Reference} {b : Bindings}
    (hb : b.scopes = scopes)
    (hset : Settles table kept (superclassReferences superclass) b
      (b.classHead around name superclass))
    (herr : (b.classHead around name superclass).errors = []) :
    SuperclassPlaced table scopes name superclass := by
  rintro parent rfl
  obtain ⟨named, hnamed⟩ : ∃ named, named = (b.declare name).define name := ⟨_, rfl⟩
  obtain ⟨noted, hnoted⟩ : ∃ noted,
      noted = named.noteIf (parent.name.text == name.text) parent.name .selfInheritance := ⟨_, rfl⟩
  have hhead : b.classHead around name (some parent)
      = (noted.read around parent.name parent.id).enter.put "super" .defined := by
    rw [hnoted, hnamed]
    rfl
  rw [hhead] at hset herr
  have htail := ((noted.read around parent.name parent.id).extends_enter around).trans
    (extends_put around _ "super" .defined)
  have hstart := ((b.extends_declare around name).trans (extends_define around _ name)).trans
    (extends_noteIf around _ (parent.name.text == name.text) parent.name .selfInheritance)
  rw [← hnamed, ← hnoted] at hstart
  have hread := (hset.before htail).after hstart
  have herr' := htail.errors_eq_nil herr
  have hne : parent.name.text ≠ name.text := by
    have hnone := (noted.extends_read around parent.name parent.id).errors_eq_nil herr'
    rw [hnoted] at hnone
    simpa using noteIf_errors_eq_nil hnone
  have hscopes : noted.scopes = putName name.text .defined scopes := by
    rw [hnoted, hnamed, scopes_noteIf, scopes_define, scopes_declare, putName_putName, hb]
  have hready := noted.extends_noteIf around (noted.isUnready parent.name.text) parent.name
    .ownInitializer
  refine ⟨hne, ?_, fun hops => ?_⟩
  · rw [← hopsIn_putName hne .defined]
    exact hops_of_settles (by rw [scopes_noteIf, hscopes]) (hread.after hready)
  · refine defines_of_hopsIn hdefined.tail fun scope hscope hdeclared => ?_
    cases hdefined scope (List.mem_of_mem_head? hscope) _ _ hdeclared

theorem AllDefined.scopesAfter {scopes : List Scope} (h : AllDefined scopes) (s : Stmt) :
    AllDefined (s.scopesAfter scopes) := by
  unfold Stmt.scopesAfter
  split
  · exact h.putName _
  · exact h

theorem Stmt.isUnreserved_declaredName {s : Stmt} (h : s.WellFormed) {text : String}
    (htext : s.declaredName = some text) : IsUnreserved text := by
  rcases s with _ | _ | _ | _ | _ | _ | ⟨_, _, _⟩ | _ | _ <;> cases htext
  · rw [Stmt.WellFormed] at h
    exact h.1
  · rw [Stmt.WellFormed, FunctionDecl.WellFormed] at h
    exact h.1
  · rw [Stmt.WellFormed] at h
    exact h.1

theorem Anchored.scopesAfter {around : Surroundings} {scopes : List Scope}
    (h : Anchored around scopes) {s : Stmt} (hs : s.WellFormed) :
    Anchored around (s.scopesAfter scopes) := by
  unfold Stmt.scopesAfter
  split
  · rename_i text htext
    exact h.putName (Stmt.isUnreserved_declaredName hs htext) .defined
  · exact h

mutual

/-- A statement that is walked without errors is placed in the scopes of the walk, which all are
    ready. -/
theorem Stmt.placed_of_bindNames {around : Surroundings} {scopes : List Scope}
    (hdefined : AllDefined scopes) (hanchor : Anchored around scopes) : ∀ (s : Stmt),
    s.WellFormed → ∀ b : Bindings, b.scopes = scopes →
    Settles table kept s.references b (s.bindNames around b) →
    (s.bindNames around b).errors = [] → s.Placed table kept scopes
  | .expression value, _, b, hb, hset, herr =>
    value.placed_of_bindNames (hdefined.legible hanchor) b hb hset herr
  | .print value, _, b, hb, hset, herr =>
    value.placed_of_bindNames (hdefined.legible hanchor) b hb hset herr
  | .var name initializer, hs, b, hb, hset, herr => by
    rw [Stmt.WellFormed] at hs
    have hdeclare := b.extends_declare around name
    have hdefine := (bindOptional around initializer (b.declare name)).extends_define around name
    rw [Stmt.Placed]
    exact placed_of_bindOptional (hdefined.legible_declared hanchor hs.1)
      (by rw [scopes_declare, hb]) ((hset.before hdefine).after hdeclare)
      (hdefine.errors_eq_nil herr)
  | .block body, hs, b, hb, hset, herr => by
    rw [Stmt.WellFormed] at hs
    have henter := b.extends_enter around
    have hleave := (bindStatements around body b.enter).extends_leave around
    rw [Stmt.Placed]
    refine placedStatements_of_bindStatements ?_ (hanchor.cons (by simp)) body hs b.enter
      (by rw [scopes_enter, hb]) ((hset.before hleave).after henter) (hleave.errors_eq_nil herr)
    exact AllDefined.cons (fun text standing h => by simp at h) hdefined
  | .ifElse condition thenBranch none, hs, b, hb, hset, herr => by
    rw [Stmt.WellFormed] at hs
    have hcondition := condition.extends_bindNames around b
    have hthen := thenBranch.extends_bindNames around (condition.bindNames around b)
    rw [Stmt.Placed]
    refine ⟨condition.placed_of_bindNames (hdefined.legible hanchor) b hb (hset.first hthen)
      (hthen.errors_eq_nil herr), ?_, hs.2.2⟩
    exact thenBranch.placed_of_bindNames hdefined hanchor hs.2.1 _
      (by rw [Expr.scopes_bindNames, hb]) (hset.second hcondition) herr
  | .ifElse condition thenBranch (some elseBranch), hs, b, hb, hset, herr => by
    rw [Stmt.WellFormed] at hs
    have hcondition := condition.extends_bindNames around b
    have hthen := thenBranch.extends_bindNames around (condition.bindNames around b)
    have helse := elseBranch.extends_bindNames around
      (thenBranch.bindNames around (condition.bindNames around b))
    have hscopes : (condition.bindNames around b).scopes = scopes := by
      rw [Expr.scopes_bindNames, hb]
    rw [Stmt.Placed]
    refine ⟨condition.placed_of_bindNames (hdefined.legible hanchor) b hb
      (hset.first (hthen.trans helse)) ((hthen.trans helse).errors_eq_nil herr),
      ⟨?_, hs.2.1.2⟩, ?_, hs.2.2.2⟩
    · exact thenBranch.placed_of_bindNames hdefined hanchor hs.2.1.1 _ hscopes
        ((hset.second hcondition).first helse) (helse.errors_eq_nil herr)
    · refine elseBranch.placed_of_bindNames hdefined hanchor hs.2.2.1 _ ?_
        ((hset.second hcondition).second hthen) herr
      rw [Stmt.scopes_bindNames around thenBranch hs.2.1.1, Stmt.scopesAfter_of_plain hs.2.1.2,
        hscopes]
  | .whileLoop condition body, hs, b, hb, hset, herr => by
    rw [Stmt.WellFormed] at hs
    have hcondition := condition.extends_bindNames around b
    have hbody := body.extends_bindNames around (condition.bindNames around b)
    rw [Stmt.Placed]
    refine ⟨condition.placed_of_bindNames (hdefined.legible hanchor) b hb (hset.first hbody)
      (hbody.errors_eq_nil herr), ?_, hs.2.2⟩
    exact body.placed_of_bindNames hdefined hanchor hs.2.1 _
      (by rw [Expr.scopes_bindNames, hb]) (hset.second hcondition) herr
  | .function declaration, hs, b, hb, hset, herr => by
    have hname := Stmt.isUnreserved_declaredName hs rfl
    have hanchor' : Anchored { around with inFunction := .function }
        (putName declaration.name.text .defined scopes) := hanchor.putName hname .defined
    rw [Stmt.WellFormed] at hs
    rw [Stmt.references, Stmt.bindNames] at hset
    rw [Stmt.bindNames] at herr
    have hdeclare := (b.extends_declare around declaration.name).trans
      (extends_define around _ declaration.name)
    rw [Stmt.Placed]
    exact declaration.placed_of_bindNames (hdefined.putName _) hanchor' (by simp) hs _
      (by rw [scopes_define, scopes_declare, putName_putName, hb]) (hset.after hdeclare) herr
  | .return line value, hs, b, hb, hset, herr => by
    have hcheck := b.extends_checkReturn around line value.isSome
    rw [Stmt.Placed]
    exact placed_of_bindOptional (hdefined.legible hanchor) (by rw [scopes_checkReturn, hb])
      (hset.after hcheck) herr
  | .class name superclass methods, hs, b, hb, hset, herr => by
    have hname := Stmt.isUnreserved_declaredName hs rfl
    rw [Stmt.WellFormed] at hs
    rw [Stmt.references, Stmt.bindNames] at hset
    rw [Stmt.bindNames] at herr
    have hanchor' := anchored_methodScopes around superclass.isSome
      (putName name.text .defined scopes)
    revert hset herr hanchor'
    generalize (if superclass.isSome then ClassContext.derived else .plain) = kind
    intro hset herr hanchor'
    generalize hheadEq : b.classHead { around with inClass := kind } name superclass = head
      at hset herr
    have hhead : b.Extends around (superclassReferences superclass) head := by
      rw [← hheadEq]
      exact (b.extends_classHead { around with inClass := kind } name superclass).outward id
    have hscopes : (head.enter.put "this" .defined).scopes
        = methodScopes superclass.isSome (putName name.text .defined scopes) := by
      rw [← hheadEq, scopes_classHead, hb]
    have hthis := (head.extends_enter around).trans (extends_put around _ "this" .defined)
    generalize head.enter.put "this" .defined = inner at hset herr hscopes hthis
    have hmethods : inner.Extends around _ (bindMethods { around with inClass := kind } methods inner) :=
      (extends_bindMethods { around with inClass := kind } methods inner).outward id
    have hclose : (bindMethods { around with inClass := kind } methods inner).Extends around []
        (if superclass.isSome then (bindMethods { around with inClass := kind } methods inner).leave.leave
          else (bindMethods { around with inClass := kind } methods inner).leave) := by
      split
      · exact (extends_leave around _).trans (extends_leave around _)
      · exact extends_leave around _
    have hset' := hset.before hclose
    have herr' := hclose.errors_eq_nil herr
    rw [Stmt.Placed]
    refine ⟨?_, ?_⟩
    · have hinner := hthis.refl_trans hmethods
      have hfirst := hset'.first hinner
      have hnone := hinner.errors_eq_nil herr'
      rw [← hheadEq] at hfirst hnone
      exact superclassPlaced_of_classHead hdefined hb hfirst hnone
    · exact placedMethods_of_bindMethods (allDefined_methodScopes _ (hdefined.putName _)) hanchor'
        methods hs.2.2 inner hscopes (hset'.second (hhead.trans_refl hthis)) herr'

theorem FunctionDecl.placed_of_bindNames {around : Surroundings} {scopes : List Scope}
    (hdefined : AllDefined scopes) (hanchor : Anchored around scopes)
    (hinside : around.inFunction ≠ .none) : ∀ (f : FunctionDecl),
    f.WellFormed → ∀ b : Bindings, b.scopes = scopes →
    Settles table kept f.references b (f.bindNames around b) →
    (f.bindNames around b).errors = [] → f.Placed table kept scopes
  | ⟨name, params, body⟩, hf, b, hb, hset, herr => by
    rw [FunctionDecl.WellFormed] at hf
    have hkept := hset.keeps_inside (FunctionDecl.extends_bindNames around _ b) hinside
    have henter := (b.extends_enter around).trans (extends_parameters around _ params)
    have hleave := (bindStatements around body (b.enter.parameters params)).extends_leave around
    rw [FunctionDecl.Placed]
    refine ⟨hkept, ?_⟩
    exact placedStatements_of_bindStatements (hdefined.cons (allDefined_paramScope params))
      (hanchor.cons (super_not_mem_paramScope hf.2.1)) body hf.2.2 _
      (by rw [scopes_parameters, hb]) ((hset.before hleave).after henter)
      (hleave.errors_eq_nil herr)

theorem placedStatements_of_bindStatements {around : Surroundings} {scopes : List Scope}
    (hdefined : AllDefined scopes) (hanchor : Anchored around scopes) : ∀ (body : List Stmt),
    WellFormedStatements body → ∀ b : Bindings, b.scopes = scopes →
    Settles table kept (statementReferences body) b (bindStatements around body b) →
    (bindStatements around body b).errors = [] → PlacedStatements table kept scopes body
  | [], _, _, _, _, _ => trivial
  | s :: rest, hbody, b, hb, hset, herr => by
    rw [WellFormedStatements] at hbody
    have hs := s.extends_bindNames around b
    have hrest := extends_bindStatements around rest (s.bindNames around b)
    rw [PlacedStatements]
    refine ⟨s.placed_of_bindNames hdefined hanchor hbody.1 b hb (hset.first hrest)
      (hrest.errors_eq_nil herr), ?_⟩
    exact placedStatements_of_bindStatements (hdefined.scopesAfter s) (hanchor.scopesAfter hbody.1)
      rest hbody.2 _ (by rw [Stmt.scopes_bindNames around s hbody.1, hb]) (hset.second hs) herr

theorem placedMethods_of_bindMethods {around : Surroundings} {scopes : List Scope}
    (hdefined : AllDefined scopes) (hanchor : Anchored around scopes) :
    ∀ (methods : List FunctionDecl), WellFormedMethods methods → ∀ b : Bindings,
    b.scopes = scopes → Settles table kept (methodReferences methods) b (bindMethods around methods b) →
    (bindMethods around methods b).errors = [] → PlacedMethods table kept scopes methods
  | [], _, _, _, _, _ => trivial
  | method :: rest, hmethods, b, hb, hset, herr => by
    rw [WellFormedMethods] at hmethods
    have hmethod := method.extends_bindNames
      { around with inFunction := method.methodContext } b
    have hrest := extends_bindMethods around rest
      (method.bindNames { around with inFunction := method.methodContext } b)
    have hanchor' : Anchored { around with inFunction := method.methodContext } scopes := hanchor
    rw [methodReferences, bindMethods] at hset
    rw [bindMethods] at herr
    rw [PlacedMethods]
    refine ⟨method.placed_of_bindNames hdefined hanchor' method.inside_methodContext hmethods.1 b
      hb (hset.first hrest) (hrest.errors_eq_nil herr), ?_⟩
    exact placedMethods_of_bindMethods hdefined hanchor rest hmethods.2 _
      (by rw [FunctionDecl.scopes_bindNames _ method hmethods.1, hb]) (hset.second hmethod) herr

end

theorem allDefined_nil : AllDefined [] := fun _ h => by cases h

theorem anchored_topLevel : Anchored .topLevel [] := fun h => by cases h

/-- A program without binding errors is placed for every table that agrees with its own, whatever
    else that table holds. -/
theorem Program.placed {program : Program} (hprogram : WellFormedStatements program)
    (hnodup : (statementReferences program).Nodup) (herr : (Program.bindings program).errors = [])
    (hagree : ∀ id ∈ statementReferences program, table[id]? = (Program.bindings program).hops[id]?)
    (hkept : ∀ id ∈ statementReferences program, id ∉ (Program.bindings program).topLevel →
      kept id) : PlacedStatements table kept [] program := by
  refine placedStatements_of_bindStatements allDefined_nil anchored_topLevel program hprogram .empty rfl ?_ herr
  exact ⟨hnodup, fun _ _ => by simp [Bindings.empty], fun _ _ => by simp [Bindings.empty],
    hagree, hkept⟩

/-- The same for a single expression. -/
theorem Expr.placed {e : Expr} (hnodup : e.references.Nodup) (herr : e.bindings.errors = [])
    (hagree : ∀ id ∈ e.references, table[id]? = e.bindings.hops[id]?) : e.Placed table [] := by
  have hset : Settles table (fun _ => True) e.references .empty e.bindings :=
    ⟨hnodup, fun _ _ => by simp [Bindings.empty], fun _ _ => by simp [Bindings.empty],
      hagree, fun _ _ _ => trivial⟩
  exact e.placed_of_bindNames (allDefined_nil.legible anchored_topLevel) .empty rfl hset herr

end Walks

end Treewalk
