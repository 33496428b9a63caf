import Treewalk.Proofs.Simulation.Carrying

/-!
# Without lines, what is alike is the same

**When no names are exchanged, two machines that are alike differ in lines and in their tables
only.**  Places in the store, identities, names and values agree one by one.
-/

namespace Treewalk

/-- All on one line. -/
abbrev Shift.flat : Shift := .ofLines fun _ => 0

namespace Correspondence

/-- No names are exchanged. -/
def IsPlain (c : Correspondence) : Prop :=
  ∀ π, c.renames π → π = .same

theorem isPlain_plain (left right : HopTable) (kept : Nat → Prop) (lines : Nat → Nat → Prop) :
    (plain left right kept lines).IsPlain :=
  fun _ hπ => hπ

section Trees

variable {c : Correspondence}

theorem NameLike.flat {name name' : Name} (h : NameLike c .same name name') :
    name'.move .flat = name.move .flat := by
  have htext := h.text
  cases name
  cases name'
  cases htext
  rfl

theorem namesLike_flat {names names' : List Name}
    (h : List.Forall₂ (NameLike c .same) names names') :
    names'.map (Name.move .flat) = names.map (Name.move .flat) := by
  induction h with
  | nil => rfl
  | cons hname _ ih => rw [List.map_cons, List.map_cons, hname.flat, ih]

theorem RefLike.text_eq {renamings : List Renaming} (hr : Unchanged renamings) {id : Nat}
    {text text' : String} (h : RefLike c renamings id text text') : text' = text := by
  rw [h.text, hr.atHops]
  rfl

theorem RefLike.flat {renamings : List Renaming} (hr : Unchanged renamings) {id : Nat}
    {name name' : Name} (h : RefLike c renamings id name.text name'.text) :
    name'.move .flat = name.move .flat := by
  have htext := h.text_eq hr
  cases name
  cases name'
  cases htext
  rfl

mutual

theorem exprLike_flat {renamings : List Renaming} (hr : Unchanged renamings) :
    ∀ (e : Expr) {e' : Expr}, ExprLike c renamings e e' → e'.move .flat = e.move .flat
  | .literal _, _, .literal _ => rfl
  | .grouping inner, _, .grouping h => by rw [Expr.move, Expr.move, exprLike_flat hr inner h]
  | .unary _ _ operand, _, .unary _ h => by rw [Expr.move, Expr.move, exprLike_flat hr operand h]
  | .binary _ _ left right, _, .binary _ hleft hright => by
    rw [Expr.move, Expr.move, exprLike_flat hr left hleft, exprLike_flat hr right hright]
  | .logical _ _ left right, _, .logical hleft hright => by
    rw [Expr.move, Expr.move, exprLike_flat hr left hleft, exprLike_flat hr right hright]
  | .variable _ _, _, .variable _ href => by rw [Expr.move, Expr.move, href.flat hr]
  | .assign _ _ value, _, .assign _ href hvalue => by
    rw [Expr.move, Expr.move, href.flat hr, exprLike_flat hr value hvalue]
  | .call callee _ args, _, .call hcallee _ hargs => by
    rw [Expr.move, Expr.move, exprLike_flat hr callee hcallee, argumentsLike_flat hr args hargs]
  | .get object _, _, .get hobject hname => by
    rw [Expr.move, Expr.move, exprLike_flat hr object hobject, hname.flat]
  | .set object _ value, _, .set hobject hname hvalue => by
    rw [Expr.move, Expr.move, exprLike_flat hr object hobject, hname.flat,
      exprLike_flat hr value hvalue]
  | .this _ _, _, .this _ _ => rfl
  | .super _ _ _, _, .super _ _ hname => by rw [Expr.move, Expr.move, hname.flat]

theorem argumentsLike_flat {renamings : List Renaming} (hr : Unchanged renamings) :
    ∀ (args : List Expr) {args' : List Expr}, ArgumentsLike c renamings args args' →
    moveArguments .flat args' = moveArguments .flat args
  | [], _, .nil => rfl
  | argument :: args, _, .cons h hargs => by
    rw [moveArguments, moveArguments, exprLike_flat hr argument h, argumentsLike_flat hr args hargs]

end

theorem optionalLike_flat {renamings : List Renaming} (hr : Unchanged renamings)
    {value value' : Option Expr} (h : OptionalLike c renamings value value') :
    value'.map (Expr.move .flat) = value.map (Expr.move .flat) := by
  cases h with
  | none => rfl
  | some h => rw [Option.map_some, Option.map_some, exprLike_flat hr _ h]

theorem superclassLike_flat {renamings : List Renaming} (hr : Unchanged renamings)
    {r r' : Option Reference} (h : Option.Rel (SuperclassLike c renamings) r r') :
    r'.map (Reference.move .flat) = r.map (Reference.move .flat) := by
  cases h with
  | none => rfl
  | some h =>
    rw [Option.map_some, Option.map_some, Reference.move, Reference.move, h.ref.flat hr, h.id]

mutual

theorem stmtLike_flat (hc : c.IsPlain) {renamings : List Renaming} (hr : Unchanged renamings) :
    ∀ (s : Stmt) {s' : Stmt}, StmtLike c renamings s s' → s'.move .flat = s.move .flat
  | .expression value, _, .expression h => by rw [Stmt.move, Stmt.move, exprLike_flat hr value h]
  | .print value, _, .print h => by rw [Stmt.move, Stmt.move, exprLike_flat hr value h]
  | .var _ _, _, .var hname h => by
    rw [hr.headD] at hname
    rw [Stmt.move, Stmt.move, hname.flat, optionalLike_flat hr h]
  | .block body, _, .block hπ h => by
    cases hc _ hπ
    rw [Stmt.move, Stmt.move, statementsLike_flat hc hr.cons body h]
  | .ifElse condition thenBranch none, _, .ifThen hcondition hthen => by
    rw [Stmt.move, Stmt.move, exprLike_flat hr condition hcondition,
      stmtLike_flat hc hr thenBranch hthen]
  | .ifElse condition thenBranch (some elseBranch), _, .ifElse hcondition hthen helse => by
    rw [Stmt.move, Stmt.move, exprLike_flat hr condition hcondition,
      stmtLike_flat hc hr thenBranch hthen, stmtLike_flat hc hr elseBranch helse]
  | .whileLoop condition body, _, .whileLoop hcondition hbody => by
    rw [Stmt.move, Stmt.move, exprLike_flat hr condition hcondition,
      stmtLike_flat hc hr body hbody]
  | .function declaration, _, .function _ h => by
    rw [Stmt.move, Stmt.move, functionLike_flat hc hr declaration h]
  | .return _ _, _, .return h => by
    rw [Stmt.move, Stmt.move, optionalLike_flat hr h]
  | .class _ _ methods, _, .class _ hname hsuperclass hmethods => by
    rw [Stmt.move, Stmt.move, hname.flat, superclassLike_flat hr hsuperclass,
      methodsLike_flat hc (hr.methodRenamings _) methods hmethods]

theorem functionLike_flat (hc : c.IsPlain) {renamings : List Renaming} (hr : Unchanged renamings) :
    ∀ (f : FunctionDecl) {f' : FunctionDecl}, FunctionLike c renamings f f' →
    f'.move .flat = f.move .flat
  | ⟨_, _, body⟩, _, .mk hπ hname hparams _ hbody => by
    cases hc _ hπ
    rw [FunctionDecl.move, FunctionDecl.move, hname.flat, namesLike_flat hparams,
      statementsLike_flat hc hr.cons body hbody]

theorem statementsLike_flat (hc : c.IsPlain) {renamings : List Renaming} (hr : Unchanged renamings) :
    ∀ (body : List Stmt) {body' : List Stmt}, StatementsLike c renamings body body' →
    moveStatements .flat body' = moveStatements .flat body
  | [], _, .nil => rfl
  | s :: rest, _, .cons hs hrest => by
    rw [moveStatements, moveStatements, stmtLike_flat hc hr s hs, statementsLike_flat hc hr rest hrest]

theorem methodsLike_flat (hc : c.IsPlain) {renamings : List Renaming} (hr : Unchanged renamings) :
    ∀ (methods : List FunctionDecl) {methods' : List FunctionDecl},
    MethodsLike c renamings methods methods' → moveMethods .flat methods' = moveMethods .flat methods
  | [], _, .nil => rfl
  | method :: rest, _, .cons h hrest => by
    rw [moveMethods, moveMethods, functionLike_flat hc hr method h, methodsLike_flat hc hr rest hrest]

end

end Trees

/-! ### Values and stores -/

section Values

variable {c : Correspondence} {w : World}

/-- In no frame of the world are names exchanged. -/
def PlainWorld (w : World) : Prop :=
  ∀ frame ∈ w, frame.1 = .same

theorem PlainWorld.chain (hw : PlainWorld w) {f : FrameId} {renamings : List Renaming}
    (h : w.Chain f renamings) : Unchanged renamings := by
  induction h with
  | globals => exact unchanged_nil
  | inner hf _ ih =>
    have hsame := hw _ (List.mem_of_getElem? hf)
    cases hsame
    exact ih.cons

theorem ClosureLike.flat (hc : c.IsPlain) (hw : PlainWorld w) {k k' : Closure}
    (h : ClosureLike c w k k') : k'.move (fun _ => 0) = k.move fun _ => 0 := by
  obtain ⟨hframe, hinit, renamings, hchain, hlike⟩ := h
  simp only [Closure.move, hframe, hinit, functionLike_flat hc (hw.chain hchain) _ hlike]

theorem MethodLike.flat (hc : c.IsPlain) (hw : PlainWorld w) {k k' : Closure}
    (h : MethodLike c w k k') : k'.move (fun _ => 0) = k.move fun _ => 0 := by
  obtain ⟨hframe, hinit, renamings, hchain, hlike⟩ := h
  simp only [Closure.move, hframe, hinit, functionLike_flat hc (hw.chain hchain).cons _ hlike]

theorem eq_of_option_rel {α β : Type} {R : α → α → Prop} {u : α → β} (hR : ∀ a b, R a b → u b = u a)
    {a b : Option α} (h : Option.Rel R a b) : b.map u = a.map u := by
  cases h with
  | some h => rw [Option.map_some, Option.map_some, hR _ _ h]
  | none => rfl

theorem LayerLike.flat (hc : c.IsPlain) (hw : PlainWorld w) {layer layer' : ClassLayer}
    (h : LayerLike c w layer layer') : layer'.move (fun _ => 0) = layer.move fun _ => 0 := by
  have hmethods : layer'.methods.map (fun _ method => method.move fun _ => 0)
      = layer.methods.map fun _ method => method.move fun _ => 0 := by
    apply Std.ExtTreeMap.ext_getElem?
    intro name
    rw [Std.ExtTreeMap.getElem?_map, Std.ExtTreeMap.getElem?_map]
    exact eq_of_option_rel (fun _ _ hmethod => hmethod.flat hc hw) (h.methods name)
  simp only [ClassLayer.move, h.identity, h.name, hmethods]

theorem ClassLike.flat (hc : c.IsPlain) (hw : PlainWorld w) {k k' : ClassValue}
    (h : ClassLike c w k k') : k'.move (fun _ => 0) = k.move fun _ => 0 := by
  have hlayers := h.ancestors
  have hancestors : k'.ancestors.map (ClassLayer.move fun _ => 0)
      = k.ancestors.map (ClassLayer.move fun _ => 0) := by
    generalize k.ancestors = layers at hlayers
    generalize k'.ancestors = layers' at hlayers
    induction hlayers with
    | nil => rfl
    | cons hlayer _ ih => rw [List.map_cons, List.map_cons, hlayer.flat hc hw, ih]
  simp only [ClassValue.move, h.own.flat hc hw, hancestors]

theorem ValueLike.flat (hc : c.IsPlain) (hw : PlainWorld w) {value value' : Value}
    (h : ValueLike c w value value') : value'.move (fun _ => 0) = value.move fun _ => 0 := by
  cases h with
  | function hk => simp only [Value.move, hk.flat hc hw]
  | «class» hk => simp only [Value.move, hk.flat hc hw]
  | «instance» ho => simp only [Value.move, Instance.move, ho.index, ho.ofClass.flat hc hw]
  | _ => rfl

theorem StoreLike.plainWorld (hc : c.IsPlain) {s s' : Store} (h : StoreLike c w s s') :
    PlainWorld w := by
  intro frame hframe
  obtain ⟨i, hi⟩ := List.mem_iff_getElem?.mp hframe
  exact hc _ (h.allowed ⟨i⟩ frame.1 frame.2 hi)

theorem bound_flat {bound bound' : Bound}
    (h : ∀ name : String, (bound'[name]?).map (Value.move fun _ => 0)
      = (bound[name]?).map (Value.move fun _ => 0)) :
    bound'.map (fun _ value => value.move fun _ => 0)
      = bound.map fun _ value => value.move fun _ => 0 := by
  apply Std.ExtTreeMap.ext_getElem?
  intro name
  rw [Std.ExtTreeMap.getElem?_map, Std.ExtTreeMap.getElem?_map]
  exact h name

theorem StoreLike.frame_flat (hc : c.IsPlain) {s s' : Store} (h : StoreLike c w s s') (i : Nat) :
    (s'.frames[i]?).map (Frame.move fun _ => 0) = (s.frames[i]?).map (Frame.move fun _ => 0) := by
  have hw := h.plainWorld hc
  have henclosing := h.enclosing i
  rcases hfound : s.frames[i]? with _ | frame <;> rcases hfound' : s'.frames[i]? with _ | frame' <;>
    rw [hfound, hfound'] at henclosing <;> simp only [Option.map_some, Option.map_none,
      Option.some.injEq, reduceCtorEq] at henclosing ⊢
  have hlt : i < w.length := by
    rw [← h.size]
    exact (Array.getElem?_eq_some_iff.mp hfound).1
  obtain ⟨⟨π, outer⟩, hi⟩ : ∃ entry, w[i]? = some entry := ⟨_, List.getElem?_eq_getElem hlt⟩
  have hbound := h.bound ⟨i⟩ π outer hi
  cases hc π (h.allowed ⟨i⟩ π outer hi)
  simp only [Frame.move, henclosing, Frame.mk.injEq, true_and]
  refine bound_flat fun name => ?_
  have hlocal := hbound name
  simp only [Store.local?, hfound, hfound'] at hlocal
  have hrel : Option.Rel (ValueLike c w) frame.bound[name]? frame'.bound[name]? := hlocal
  exact eq_of_option_rel (fun _ _ hvalue => hvalue.flat hc hw) hrel

theorem StoreLike.own_flat (hc : c.IsPlain) {s s' : Store} (h : StoreLike c w s s') (i : Nat) :
    (s'.fields[i]?).map (fun own => own.map fun _ value => value.move fun _ => 0)
      = (s.fields[i]?).map fun own => own.map fun _ value => value.move fun _ => 0 := by
  have hw := h.plainWorld hc
  have hsize := h.fieldsSize
  have hfields := h.fields ⟨i, ⟨⟨0, "", ∅⟩, []⟩⟩ ⟨i, ⟨⟨0, "", ∅⟩, []⟩⟩ rfl
  rcases hfound : s.fields[i]? with _ | own
  · have hnone : s'.fields[i]? = none := by
      rw [Array.getElem?_eq_none_iff] at hfound ⊢
      omega
    rw [hnone]
  · have hlt := (Array.getElem?_eq_some_iff.mp hfound).1
    obtain ⟨own', hfound'⟩ : ∃ own', s'.fields[i]? = some own' :=
      ⟨_, Array.getElem?_eq_getElem (hsize ▸ hlt)⟩
    simp only [Store.field?, hfound, hfound'] at hfields
    rw [hfound', Option.map_some, Option.map_some]
    congr 1
    exact bound_flat fun name =>
      eq_of_option_rel (fun _ _ hvalue => hvalue.flat hc hw) (hfields name)

theorem StoreLike.flat (hc : c.IsPlain) {s s' : Store} (h : StoreLike c w s s') :
    s'.move (fun _ => 0) = s.move fun _ => 0 := by
  have hframes : s'.frames.map (Frame.move fun _ => 0) = s.frames.map (Frame.move fun _ => 0) :=
    Array.ext_getElem? fun i => by
      rw [Array.getElem?_map, Array.getElem?_map]
      exact h.frame_flat hc i
  have hfields : s'.fields.map (fun own => own.map fun _ value => value.move fun _ => 0)
      = s.fields.map fun own => own.map fun _ value => value.move fun _ => 0 :=
    Array.ext_getElem? fun i => by
      rw [Array.getElem?_map, Array.getElem?_map]
      exact h.own_flat hc i
  simp only [Store.move, hframes, hfields]

/-- Machines that are alike are the same without lines, but for their tables. -/
theorem MachineLike.flat (hc : c.IsPlain) {m m' : Machine} (h : MachineLike c w m m') :
    m'.move (fun _ => 0) = { m.move fun _ => 0 with hops := c.right } := by
  rcases m with ⟨store, current, hops, sink, identities, clock⟩
  rcases m' with ⟨store', current', hops', sink', identities', clock'⟩
  have hstore := h.store.flat hc
  obtain ⟨-, hcurrent, -, hhops, hsink, hidentities, hclock⟩ := h
  simp only at hstore hcurrent hhops hsink hidentities hclock
  simp only [Machine.move, hstore, hcurrent, hhops, hsink, hidentities, hclock]

end Values

end Correspondence

end Treewalk
