import Treewalk.Evaluation
import Treewalk.Proofs.Store.Renumbering

/-!
# Runs with other numbers

**What a program does depends on the hop counts of its references and not on their numbers.**  Two
machines are compared that differ in the numbers alone: in those that functions carry, and in the
table that gives them their hop counts.  The same code with its own numbers on either side leaves
machines that differ in the numbers alone, with results that do, or stops for the same reason.
-/

namespace Treewalk

/-- The second table holds the hop counts of the first under other numbers, and nothing else. -/
structure HopTable.Renumbered (ι : Nat → Nat) (table table' : HopTable) : Prop where
  hops : ∀ id, table'[ι id]? = table[id]?
  outside : ∀ id, (∀ known, ι known ≠ id) → table'[id]? = none

/-- The second machine is the first with other numbers. -/
inductive Machine.Renumbered (ι : Nat → Nat) (m : Machine) : Machine → Prop
  | mk {table : HopTable} (h : HopTable.Renumbered ι m.hops table) :
    Renumbered ι m { m with store := m.store.renumber ι, hops := table }

theorem Machine.Renumbered.table {ι : Nat → Nat} {m m' : Machine} (h : m.Renumbered ι m') :
    HopTable.Renumbered ι m.hops m'.hops := by
  obtain ⟨h⟩ := h
  exact h

theorem Machine.Renumbered.sink_eq {ι : Nat → Nat} {m m' : Machine} (h : m.Renumbered ι m') :
    m'.sink = m.sink := by
  obtain ⟨h⟩ := h
  rfl

/-- How a statement ends, with other numbers. -/
def Flow.renumber (ι : Nat → Nat) : Flow → Flow
  | .normal => .normal
  | .returned value => .returned (value.renumber ι)

namespace Run

variable {ι : Nat → Nat} {α β γ δ : Type}

/-- Code with its own numbers on either side. -/
abbrev Renumbers (ι : Nat → Nat) (u : α → β) (x : Run α) (y : Run β) : Prop :=
  Tracks (Machine.Renumbered ι) id u x y

/-! ### Stopping -/

theorem renumbers_fault (site : Name) (cause : FaultCause) (u : α → β) :
    Renumbers ι u (fault site cause) (fault site cause) :=
  tracks_throw _

theorem renumbers_orFault (site : Name) {u : α → β} {x : Except FaultCause α}
    {y : Except FaultCause β} (h : y = x.map u) :
    Renumbers ι u (orFault site x) (orFault site y) := by
  subst h
  rcases x with cause | result
  · exact renumbers_fault site cause u
  · exact tracks_pure rfl

theorem renumbers_exhausted (u : α → β) : Renumbers ι u exhausted exhausted :=
  tracks_throw _

/-! ### Frames and names -/

theorem renumbers_currentFrame : Renumbers ι id currentFrame currentFrame := by
  rintro m _ ⟨h⟩
  exact .ok ⟨h⟩

theorem renumbers_define (f : FrameId) (name : String) (value : Value) :
    Renumbers ι id (define f name value) (define f name (value.renumber ι)) := by
  rintro ⟨store, current, hops, sink, identities, clock⟩ _ ⟨h⟩
  simp only [define, Machine.mapStore, ← Store.renumber_define]
  exact .ok ⟨h⟩

theorem renumbers_child (f : FrameId) : Renumbers ι id (child f) (child f) := by
  rintro ⟨store, current, hops, sink, identities, clock⟩ _ ⟨h⟩
  simp only [child, Machine.allocate, Store.renumber_child]
  exact .ok ⟨h⟩

theorem renumbers_within (f : FrameId) {u : α → β} {body : Run α} {body' : Run β}
    (hbody : Renumbers ι u body body') : Renumbers ι u (within f body) (within f body') := by
  rintro m _ ⟨h⟩
  have hinside := hbody { m with current := f } _ ⟨h⟩
  unfold within
  generalize body { m with current := f } = outcome at hinside ⊢
  generalize body' _ = outcome' at hinside ⊢
  cases hinside with
  | ok hlater =>
    obtain ⟨h⟩ := hlater
    exact .ok ⟨h⟩
  | error hlater =>
    obtain ⟨h⟩ := hlater
    exact .error ⟨h⟩

theorem renumbers_readGlobal (name : Name) :
    Renumbers ι (Value.renumber ι) (readGlobal name) (readGlobal name) := by
  rintro m _ ⟨h⟩
  simp only [readGlobal, Store.get?_renumber]
  rcases m.store.get? Store.globals name.text with _ | value
  · exact .error ⟨h⟩
  · exact .ok ⟨h⟩

theorem renumbers_assignFrom (f : FrameId) (name : Name) (value : Value) :
    Renumbers ι id (assignFrom f name value) (assignFrom f name (value.renumber ι)) := by
  rintro ⟨store, current, hops, sink, identities, clock⟩ _ ⟨h⟩
  simp only [assignFrom, Store.owner?_renumber]
  rcases store.owner? f name.text with _ | owner
  · exact .error ⟨h⟩
  · simp only [Machine.mapStore, ← Store.renumber_define]
    exact .ok ⟨h⟩

theorem renumbers_readAt (hops : Nat) (name : String) :
    Renumbers ι (Value.renumber ι) (readAt hops name) (readAt hops name) := by
  rintro m _ ⟨h⟩
  simp only [readAt, Store.getAt_renumber]
  rcases m.store.getAt m.current hops name with breach | value
  · exact .error ⟨h⟩
  · exact .ok ⟨h⟩

theorem renumbers_assignAt (count : Nat) (name : String) (value : Value) :
    Renumbers ι id (assignAt count name value) (assignAt count name (value.renumber ι)) := by
  rintro ⟨store, current, hops, sink, identities, clock⟩ _ ⟨h⟩
  simp only [assignAt, Store.ancestor?_renumber]
  rcases store.ancestor? current count with _ | frame
  · exact .error ⟨h⟩
  · simp only [Machine.mapStore, ← Store.renumber_define]
    exact .ok ⟨h⟩

/-- The one place where a number is looked at. -/
theorem renumbers_hopsOf (number : Nat) : Renumbers ι id (hopsOf number) (hopsOf (ι number)) := by
  rintro m _ ⟨h⟩
  simp only [hopsOf, h.hops]
  exact .ok ⟨h⟩

theorem renumbers_read (name : Name) (number : Nat) :
    Renumbers ι (Value.renumber ι) (read name number) (read name (ι number)) := by
  refine (renumbers_hopsOf number).bind fun count? => ?_
  rcases count? with _ | count
  · exact renumbers_readGlobal name
  · exact renumbers_readAt count name.text

theorem renumbers_assign (name : Name) (number : Nat) (value : Value) :
    Renumbers ι id (assign name number value) (assign name (ι number) (value.renumber ι)) := by
  refine (renumbers_hopsOf number).bind fun count? => ?_
  rcases count? with _ | count
  · exact renumbers_assignFrom _ name value
  · exact renumbers_assignAt count name.text value

/-! ### Functions, classes and instances -/

theorem renumbers_freshIdentity : Renumbers ι id freshIdentity freshIdentity := by
  rintro m _ ⟨h⟩
  exact .ok ⟨h⟩

theorem renumbers_functionValue (f : Closure) :
    Renumbers ι (Value.renumber ι) (functionValue f) (functionValue (f.renumber ι)) :=
  renumbers_freshIdentity.map fun _ => rfl

theorem renumbers_bindMethod (method : Closure) (o : Instance) :
    Renumbers ι (Closure.renumber ι) (bindMethod method o)
      (bindMethod (method.renumber ι) (o.renumber ι)) :=
  (renumbers_child method.frame).bind fun frame =>
    (renumbers_define frame "this" (.instance o)).map fun _ => rfl

theorem renumbers_newInstance (c : ClassValue) :
    Renumbers ι (Instance.renumber ι) (newInstance c) (newInstance (c.renumber ι)) := by
  rintro ⟨store, current, hops, sink, identities, clock⟩ _ ⟨h⟩
  simp only [newInstance, Machine.allocate, Store.renumber_newInstance]
  exact .ok ⟨h⟩

theorem renumbers_field? (o : Instance) (name : String) :
    Renumbers ι (Option.map (Value.renumber ι)) (field? o name) (field? (o.renumber ι) name) := by
  rintro m _ ⟨h⟩
  simp only [field?, Store.field?_renumber]
  exact .ok ⟨h⟩

theorem renumbers_setField (o : Instance) (name : String) (value : Value) :
    Renumbers ι id (setField o name value) (setField (o.renumber ι) name (value.renumber ι)) := by
  rintro ⟨store, current, hops, sink, identities, clock⟩ _ ⟨h⟩
  simp only [setField, Machine.mapStore, ← Store.renumber_setField]
  exact .ok ⟨h⟩

theorem renumbers_methodOf (c : ClassValue) (o : Instance) (name : Name) :
    Renumbers ι (Value.renumber ι) (methodOf c o name)
      (methodOf (c.renumber ι) (o.renumber ι) name) := by
  unfold methodOf
  rw [ClassValue.findMethod?_renumber]
  rcases c.findMethod? name.text with _ | method
  · exact renumbers_fault _ _ _
  · exact (renumbers_bindMethod method o).bind fun bound => renumbers_functionValue bound

theorem renumbers_property (o : Instance) (name : Name) :
    Renumbers ι (Value.renumber ι) (property o name) (property (o.renumber ι) name) := by
  refine (renumbers_field? o name.text).bind fun value? => ?_
  rcases value? with _ | value
  · exact renumbers_methodOf o.ofClass o name
  · exact tracks_pure rfl

theorem renumbers_superMethod (line number : Nat) (method : Name) :
    Renumbers ι (Value.renumber ι) (superMethod line number method)
      (superMethod line (ι number) method) := by
  refine (renumbers_hopsOf number).bind fun count? => ?_
  rcases count? with _ | count
  · exact renumbers_fault _ _ _
  refine (renumbers_readAt count "super").bind fun value => ?_
  cases value with
  | «class» superclass =>
    rcases count with _ | inner
    · exact tracks_throw _
    · refine (renumbers_readAt inner "this").bind fun value => ?_
      cases value with
      | «instance» o => exact renumbers_methodOf superclass o method
      | _ => exact renumbers_fault _ _ _
  | _ => exact renumbers_fault _ _ _

theorem methodTable_renumber (frame : FrameId) (methods : List FunctionDecl) :
    methodTable frame (moveMethods (.ofIds ι) methods)
      = (methodTable frame methods).map fun _ method => method.renumber ι := by
  suffices h : ∀ table : Std.ExtTreeMap String Closure,
      (moveMethods (.ofIds ι) methods).foldl (fun table declaration =>
          table.insert declaration.name.text ⟨declaration, frame, declaration.isInitializer⟩)
        (table.map fun _ method => method.renumber ι)
      = (methods.foldl (fun table declaration =>
          table.insert declaration.name.text ⟨declaration, frame, declaration.isInitializer⟩)
        table).map fun _ method => method.renumber ι by
    have hempty : (∅ : Std.ExtTreeMap String Closure).map (fun _ method => method.renumber ι) = ∅ :=
      Std.ExtTreeMap.ext_getElem? fun name => by simp
    have hmethods := h ∅
    rwa [hempty] at hmethods
  induction methods with
  | nil => exact fun _ => rfl
  | cons method rest ih =>
    intro table
    rw [moveMethods, List.foldl_cons, List.foldl_cons, ← ih]
    congr 1
    refine Std.ExtTreeMap.ext_getElem? fun name => ?_
    simp only [Std.ExtTreeMap.getElem?_map, Std.ExtTreeMap.getElem?_insert,
      FunctionDecl.name_move, Name.text_move, FunctionDecl.isInitializer_move]
    split <;> rfl

theorem renumbers_newClass (name : String) (parent : Option ClassValue)
    (methods : Std.ExtTreeMap String Closure) :
    Renumbers ι (ClassValue.renumber ι) (newClass name parent methods)
      (newClass name (parent.map (ClassValue.renumber ι))
        (methods.map fun _ => Closure.renumber ι)) := by
  refine renumbers_freshIdentity.bind fun identity => ?_
  rcases parent with _ | parent
  · exact tracks_pure rfl
  · exact tracks_pure rfl

/-! ### The outside -/

theorem renumbers_write (text : String) : Renumbers ι id (write text) (write text) := by
  rintro ⟨store, current, hops, sink, identities, clock⟩ _ ⟨h⟩
  simp only [write, Machine.mapSink]
  split
  · exact .ok ⟨h⟩
  · exact .error ⟨h⟩

theorem renumbers_flush : Renumbers ι id flush flush := by
  rintro m _ ⟨h⟩
  unfold flush
  dsimp only
  split
  · exact .error ⟨h⟩
  · exact .ok ⟨h⟩

theorem renumbers_clock : Renumbers ι (Value.renumber ι) clock clock := by
  rintro m _ ⟨h⟩
  show EndAlike _ _ _ (.ok (Value.number _) _) (.ok (Value.renumber ι (.number _)) _)
  exact .ok ⟨h⟩

/-! ### Declarations -/

theorem renumbers_bindParams (frame : FrameId) (params : List Name) (args : List Value) :
    Renumbers ι id (bindParams frame params args)
      (bindParams frame params (args.map (Value.renumber ι))) := by
  induction params generalizing args with
  | nil => exact tracks_pure rfl
  | cons param params ih =>
    rcases args with _ | ⟨argument, args⟩
    · exact tracks_pure rfl
    · exact (renumbers_define frame param.text argument).bind fun _ => ih args

theorem renumbers_superclassOf (superclass : Option Reference) :
    Renumbers ι (Option.map (ClassValue.renumber ι)) (superclassOf superclass)
      (superclassOf (superclass.map (Reference.move (.ofIds ι)))) := by
  rcases superclass with _ | superclass
  · exact tracks_pure rfl
  · refine (renumbers_read superclass.name superclass.id).bind fun value => ?_
    cases value with
    | «class» parent => exact tracks_pure rfl
    | _ => exact renumbers_fault _ _ _

theorem renumbers_methodFrame (frame : FrameId) (parent : Option ClassValue) :
    Renumbers ι id (methodFrame frame parent)
      (methodFrame frame (parent.map (ClassValue.renumber ι))) := by
  rcases parent with _ | parent
  · exact tracks_pure rfl
  · exact (renumbers_child frame).bind fun inner =>
      (renumbers_define inner "super" (.class parent)).map fun _ => rfl

theorem renumbers_declareClass (name : Name) (superclass : Option Reference)
    (methods : List FunctionDecl) :
    Renumbers ι id (declareClass name superclass methods)
      (declareClass name (superclass.map (Reference.move (.ofIds ι)))
        (moveMethods (.ofIds ι) methods)) := by
  refine (renumbers_superclassOf superclass).bind fun parent => ?_
  refine renumbers_currentFrame.bind fun frame => ?_
  refine (renumbers_define frame name.text .nil).bind fun _ => ?_
  refine (renumbers_methodFrame frame parent).bind fun inner => ?_
  rw [methodTable_renumber]
  exact (renumbers_newClass name.text parent _).bind fun value =>
    renumbers_assignFrom frame name (.class value)

theorem renumbers_declareFunction (declaration : FunctionDecl) :
    Renumbers ι id (declareFunction declaration)
      (declareFunction (declaration.move (.ofIds ι))) := by
  refine renumbers_currentFrame.bind fun frame => ?_
  refine (renumbers_functionValue ⟨declaration, frame, false⟩).bind fun value => ?_
  rw [FunctionDecl.name_move]
  exact renumbers_define frame declaration.name.text value

/-! ### Programs -/

mutual

theorem renumbers_execute : ∀ (steps : Nat) (s : Stmt),
    Renumbers ι (Flow.renumber ι) (execute steps s) (execute steps (s.move (.ofIds ι)))
  | 0, _ => renumbers_exhausted _
  | steps + 1, .expression value => by
    rw [Stmt.move, execute, execute]
    exact (renumbers_evaluate steps value).map fun _ => rfl
  | steps + 1, .print value => by
    rw [Stmt.move, execute, execute]
    refine (renumbers_evaluate steps value).bind fun value => ?_
    rw [Value.text_renumber]
    exact (renumbers_write _).map fun _ => rfl
  | steps + 1, .var name initializer => by
    rw [Stmt.move, execute, execute]
    refine (renumbers_evaluateOptional steps initializer).bind fun value => ?_
    refine renumbers_currentFrame.bind fun frame => ?_
    exact (renumbers_define frame name.text value).map fun _ => rfl
  | steps + 1, .block body => by
    rw [Stmt.move, execute, execute]
    refine renumbers_currentFrame.bind fun frame => (renumbers_child frame).bind fun inner => ?_
    exact renumbers_within inner (renumbers_executeAll steps body)
  | steps + 1, .ifElse condition thenBranch none => by
    rw [Stmt.move, execute, execute]
    refine (renumbers_evaluate steps condition).bind fun value => ?_
    rw [Value.isTruthy_renumber]
    split
    · exact renumbers_execute steps thenBranch
    · exact tracks_pure rfl
  | steps + 1, .ifElse condition thenBranch (some elseBranch) => by
    rw [Stmt.move, execute, execute]
    refine (renumbers_evaluate steps condition).bind fun value => ?_
    rw [Value.isTruthy_renumber]
    split
    · exact renumbers_execute steps thenBranch
    · exact renumbers_execute steps elseBranch
  | steps + 1, .whileLoop condition body => by
    rw [Stmt.move, execute, execute]
    refine (renumbers_evaluate steps condition).bind fun value => ?_
    rw [Value.isTruthy_renumber]
    split
    · refine (renumbers_execute steps body).bind fun flow => ?_
      cases flow with
      | normal => exact renumbers_execute steps (.whileLoop condition body)
      | returned value => exact tracks_pure rfl
    · exact tracks_pure rfl
  | steps + 1, .function declaration => by
    rw [Stmt.move, execute, execute]
    exact (renumbers_declareFunction declaration).map fun _ => rfl
  | steps + 1, .return _ value => by
    rw [Stmt.move, execute, execute]
    exact (renumbers_evaluateOptional steps value).map fun _ => rfl
  | steps + 1, .class name superclass methods => by
    rw [Stmt.move, execute, execute]
    exact (renumbers_declareClass name superclass methods).map fun _ => rfl

theorem renumbers_executeAll : ∀ (steps : Nat) (body : List Stmt),
    Renumbers ι (Flow.renumber ι) (executeAll steps body)
      (executeAll steps (moveStatements (.ofIds ι) body))
  | 0, _ => renumbers_exhausted _
  | steps + 1, [] => tracks_pure rfl
  | steps + 1, s :: rest => by
    rw [moveStatements, executeAll, executeAll]
    refine (renumbers_execute steps s).bind fun flow => ?_
    cases flow with
    | normal => exact renumbers_executeAll steps rest
    | returned value => exact tracks_pure rfl

theorem renumbers_evaluateOptional : ∀ (steps : Nat) (value : Option Expr),
    Renumbers ι (Value.renumber ι) (evaluateOptional steps value)
      (evaluateOptional steps (value.map (Expr.move (.ofIds ι))))
  | 0, _ => renumbers_exhausted _
  | _ + 1, none => tracks_pure rfl
  | steps + 1, some value => renumbers_evaluate steps value

theorem renumbers_evaluate : ∀ (steps : Nat) (e : Expr),
    Renumbers ι (Value.renumber ι) (evaluate steps e) (evaluate steps (e.move (.ofIds ι)))
  | 0, _ => renumbers_exhausted _
  | steps + 1, .literal value => by
    rw [Expr.move, evaluate]
    exact tracks_pure (Literal.renumber_value ι value).symm
  | steps + 1, .grouping inner => by
    rw [Expr.move, evaluate, evaluate]
    exact renumbers_evaluate steps inner
  | steps + 1, .unary op line operand => by
    rw [Expr.move, evaluate, evaluate]
    exact (renumbers_evaluate steps operand).bind fun operand =>
      renumbers_orFault _ (op.apply_renumber ι operand)
  | steps + 1, .binary op line left right => by
    rw [Expr.move, evaluate, evaluate]
    exact (renumbers_evaluate steps left).bind fun left =>
      (renumbers_evaluate steps right).bind fun right =>
        renumbers_orFault _ (op.apply_renumber ι left right)
  | steps + 1, .logical op line left right => by
    rw [Expr.move, evaluate, evaluate]
    refine (renumbers_evaluate steps left).bind fun left => ?_
    rw [LogicalOp.decides_renumber]
    split
    · exact tracks_pure rfl
    · exact renumbers_evaluate steps right
  | steps + 1, .variable name number => by
    rw [Expr.move, evaluate, evaluate]
    exact renumbers_read name number
  | steps + 1, .assign name number value => by
    rw [Expr.move, evaluate, evaluate]
    exact (renumbers_evaluate steps value).bind fun value =>
      (renumbers_assign name number value).map fun _ => rfl
  | steps + 1, .call callee line args => by
    rw [Expr.move, evaluate, evaluate]
    exact (renumbers_evaluate steps callee).bind fun callee =>
      (renumbers_evaluateAll steps args).bind fun args => renumbers_call steps callee line args
  | steps + 1, .get object name => by
    rw [Expr.move, evaluate, evaluate]
    refine (renumbers_evaluate steps object).bind fun object => ?_
    cases object with
    | «instance» o => exact renumbers_property o name
    | _ => exact renumbers_fault _ _ _
  | steps + 1, .set object name value => by
    rw [Expr.move, evaluate, evaluate]
    refine (renumbers_evaluate steps object).bind fun object => ?_
    cases object with
    | «instance» o =>
      refine (renumbers_evaluate steps value).bind fun value => ?_
      exact (renumbers_setField o name.text value).map fun _ => rfl
    | _ => exact renumbers_fault _ _ _
  | steps + 1, .this line number => by
    rw [Expr.move, evaluate, evaluate]
    exact renumbers_read ⟨"this", line⟩ number
  | steps + 1, .super line number method => by
    rw [Expr.move, evaluate, evaluate]
    exact renumbers_superMethod line number method

theorem renumbers_evaluateAll : ∀ (steps : Nat) (args : List Expr),
    Renumbers ι (List.map (Value.renumber ι)) (evaluateAll steps args)
      (evaluateAll steps (moveArguments (.ofIds ι) args))
  | 0, _ => renumbers_exhausted _
  | _ + 1, [] => tracks_pure rfl
  | steps + 1, argument :: args => by
    rw [moveArguments, evaluateAll, evaluateAll]
    exact (renumbers_evaluate steps argument).bind fun value =>
      (renumbers_evaluateAll steps args).map fun _ => rfl

theorem renumbers_call : ∀ (steps : Nat) (callee : Value) (line : Nat) (args : List Value),
    Renumbers ι (Value.renumber ι) (call steps callee line args)
      (call steps (callee.renumber ι) line (args.map (Value.renumber ι)))
  | 0, _, _, _ => renumbers_exhausted _
  | steps + 1, callee, line, args => by
    unfold call
    rw [Value.arity?_renumber, List.length_map, Value.text_renumber]
    rcases callee.arity? with _ | arity
    · exact renumbers_fault _ _ _
    · dsimp only
      split
      · exact renumbers_fault _ _ _
      · cases callee with
        | native which =>
          cases which
          exact renumbers_clock
        | function identity closure => exact renumbers_invoke steps closure args
        | «class» c => exact renumbers_instantiate steps c args
        | _ => exact renumbers_fault _ _ _

theorem renumbers_invoke : ∀ (steps : Nat) (f : Closure) (args : List Value),
    Renumbers ι (Value.renumber ι) (invoke steps f args)
      (invoke steps (f.renumber ι) (args.map (Value.renumber ι)))
  | 0, _, _ => renumbers_exhausted _
  | steps + 1, f, args => by
    rw [invoke, invoke, Closure.renumber, FunctionDecl.params_renumber, FunctionDecl.body_renumber]
    refine (renumbers_child f.frame).bind fun frame => ?_
    refine (renumbers_bindParams frame f.declaration.params args).bind fun _ => ?_
    refine (renumbers_within frame (renumbers_executeAll steps f.declaration.body)).bind
      fun flow => ?_
    dsimp only
    split
    · exact renumbers_within f.frame (renumbers_readAt 0 "this")
    · cases flow with
      | normal => exact tracks_pure rfl
      | returned value => exact tracks_pure rfl

theorem renumbers_instantiate : ∀ (steps : Nat) (c : ClassValue) (args : List Value),
    Renumbers ι (Value.renumber ι) (instantiate steps c args)
      (instantiate steps (c.renumber ι) (args.map (Value.renumber ι)))
  | 0, _, _ => renumbers_exhausted _
  | steps + 1, c, args => by
    rw [instantiate, instantiate]
    refine (renumbers_newInstance c).bind fun o => ?_
    rw [ClassValue.initializer?_renumber]
    rcases c.initializer? with _ | initializer
    · exact tracks_pure rfl
    · exact (renumbers_bindMethod initializer o).bind fun bound =>
        (renumbers_invoke steps bound args).map fun _ => rfl

end

theorem renumbers_executeTop (steps : Nat) : ∀ program : Program,
    Renumbers ι id (executeTop steps program)
      (executeTop steps (moveStatements (.ofIds ι) program))
  | [] => tracks_pure rfl
  | s :: rest => by
    rw [moveStatements, executeTop, executeTop]
    exact (renumbers_execute steps s).bind fun _ => renumbers_executeTop steps rest

theorem renumbers_interpret (steps : Nat) (program : Program) :
    Renumbers ι id (interpret steps program)
      (interpret steps (moveStatements (.ofIds ι) program)) :=
  (renumbers_executeTop steps program).bind fun _ => renumbers_flush

end Run

end Treewalk
