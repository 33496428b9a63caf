import Treewalk.Proofs.Evaluation.ConfinedRuns
import Treewalk.Proofs.Evaluation.Origins

/-!
# Runs keep what is known

**A part of a program without errors leaves a machine in which all values are known, and so does
every part that it starts.**  The first is an induction on the number of steps.  The second follows
step by step: a part is started with values and in a machine that the parts before it have left.
-/

namespace Treewalk

/-! ### Known code -/

/-- A statement of a source without errors. -/
def Stmt.Known (s : Stmt) : Prop :=
  s.WellFormed ∧ s.references.Nodup ∧ ∃ inFunction, s.Checked inFunction

/-- Statements of a source without errors. -/
def KnownStatements (body : List Stmt) : Prop :=
  WellFormedStatements body ∧ (statementReferences body).Nodup
    ∧ ∃ inFunction, CheckedStatements inFunction body

theorem nodup_of_mem_methods {methods : List FunctionDecl} (h : (methodReferences methods).Nodup)
    {method : FunctionDecl} (hmem : method ∈ methods) : method.references.Nodup := by
  induction methods with
  | nil => cases hmem
  | cons first rest ih =>
    rw [methodReferences] at h
    have hparts := List.nodup_append.mp h
    rcases List.mem_cons.mp hmem with rfl | hrest
    · exact hparts.1
    · exact ih hparts.2.1 hrest

section Code

variable {condition : Expr} {first second : Stmt} {optional : Option Stmt}

theorem Stmt.Known.block {body : List Stmt} (h : (Stmt.block body).Known) :
    KnownStatements body := by
  obtain ⟨hwell, hnodup, inFunction, hchecked⟩ := h
  rw [Stmt.WellFormed] at hwell
  rw [Stmt.references] at hnodup
  rw [Stmt.Checked] at hchecked
  exact ⟨hwell, hnodup, inFunction, hchecked⟩

theorem Stmt.Known.ifCondition (h : (Stmt.ifElse condition first optional).Known) :
    condition.WellFormed := by
  cases optional with
  | none =>
    have hwell := h.1
    rw [Stmt.WellFormed] at hwell
    exact hwell.1
  | some second =>
    have hwell := h.1
    rw [Stmt.WellFormed] at hwell
    exact hwell.1

theorem Stmt.Known.thenBranch (h : (Stmt.ifElse condition first optional).Known) :
    first.Known := by
  obtain ⟨hwell, hnodup, inFunction, hchecked⟩ := h
  cases optional with
  | none =>
    rw [Stmt.WellFormed] at hwell
    rw [Stmt.references] at hnodup
    rw [Stmt.Checked] at hchecked
    exact ⟨hwell.2.1, (List.nodup_append.mp hnodup).2.1, inFunction, hchecked⟩
  | some second =>
    rw [Stmt.WellFormed] at hwell
    rw [Stmt.references] at hnodup
    rw [Stmt.Checked] at hchecked
    have hbranches := (List.nodup_append.mp hnodup).2.1
    exact ⟨hwell.2.1.1, (List.nodup_append.mp hbranches).1, inFunction, hchecked.1⟩

theorem Stmt.Known.elseBranch (h : (Stmt.ifElse condition first (some second)).Known) :
    second.Known := by
  obtain ⟨hwell, hnodup, inFunction, hchecked⟩ := h
  rw [Stmt.WellFormed] at hwell
  rw [Stmt.references] at hnodup
  rw [Stmt.Checked] at hchecked
  have hbranches := (List.nodup_append.mp hnodup).2.1
  exact ⟨hwell.2.2.1, (List.nodup_append.mp hbranches).2.1, inFunction, hchecked.2⟩

theorem Stmt.Known.whileCondition (h : (Stmt.whileLoop condition first).Known) :
    condition.WellFormed := by
  have hwell := h.1
  rw [Stmt.WellFormed] at hwell
  exact hwell.1

theorem Stmt.Known.whileBody (h : (Stmt.whileLoop condition first).Known) : first.Known := by
  obtain ⟨hwell, hnodup, inFunction, hchecked⟩ := h
  rw [Stmt.WellFormed] at hwell
  rw [Stmt.references] at hnodup
  rw [Stmt.Checked] at hchecked
  exact ⟨hwell.2.1, (List.nodup_append.mp hnodup).2.1, inFunction, hchecked⟩

theorem Stmt.Known.declaration {declaration : FunctionDecl} (h : (Stmt.function declaration).Known)
  :
    declaration.Known := by
  obtain ⟨hwell, hnodup, inFunction, hchecked⟩ := h
  rw [Stmt.WellFormed] at hwell
  rw [Stmt.references] at hnodup
  rw [Stmt.Checked] at hchecked
  exact ⟨hwell, hnodup, .function, hchecked⟩

theorem Stmt.Known.methods {name : Name} {superclass : Option Reference}
    {methods : List FunctionDecl} (h : (Stmt.class name superclass methods).Known) :
    IsUnreserved name.text ∧ ∀ method ∈ methods, method.Known := by
  obtain ⟨hwell, hnodup, inFunction, hchecked⟩ := h
  rw [Stmt.WellFormed] at hwell
  rw [Stmt.references] at hnodup
  rw [Stmt.Checked] at hchecked
  have hmethods := (List.nodup_append.mp hnodup).2.1
  exact ⟨hwell.1, fun method hmem =>
    ⟨hwell.2.2.of_mem hmem, nodup_of_mem_methods hmethods hmem, _, hchecked.of_mem hmem⟩⟩

theorem KnownStatements.head {s : Stmt} {rest : List Stmt} (h : KnownStatements (s :: rest)) :
    s.Known := by
  obtain ⟨hwell, hnodup, inFunction, hchecked⟩ := h
  rw [WellFormedStatements] at hwell
  rw [statementReferences] at hnodup
  rw [CheckedStatements] at hchecked
  exact ⟨hwell.1, (List.nodup_append.mp hnodup).1, inFunction, hchecked.1⟩

theorem KnownStatements.tail {s : Stmt} {rest : List Stmt} (h : KnownStatements (s :: rest)) :
    KnownStatements rest := by
  obtain ⟨hwell, hnodup, inFunction, hchecked⟩ := h
  rw [WellFormedStatements] at hwell
  rw [statementReferences] at hnodup
  rw [CheckedStatements] at hchecked
  exact ⟨hwell.2, (List.nodup_append.mp hnodup).2.1, inFunction, hchecked.2⟩

theorem FunctionDecl.Known.body {f : FunctionDecl} (h : f.Known) : KnownStatements f.body := by
  obtain ⟨hwell, hnodup, inFunction, hchecked⟩ := h
  rcases f with ⟨name, params, body⟩
  rw [FunctionDecl.WellFormed] at hwell
  rw [FunctionDecl.references] at hnodup
  rw [FunctionDecl.Checked] at hchecked
  exact ⟨hwell.2.2, hnodup, inFunction, hchecked.2⟩

end Code

/-! ### Known moments -/

/-- The code of a task is that of a source without errors, and its values are known. -/
def Task.Known (happened : Moment → Prop) (s : Store) : Task → Prop
  | .program statements => KnownStatements statements
  | .execute statement => statement.Known
  | .executeAll body => KnownStatements body
  | .evaluateOptional value => ∀ e, value = some e → e.WellFormed
  | .evaluate e => e.WellFormed
  | .evaluateAll args => WellFormedArguments args
  | .call callee _ args => callee.Known happened s ∧ ∀ value ∈ args, value.Known happened s
  | .invoke f args => f.Known happened s ∧ ∀ value ∈ args, value.Known happened s
  | .instantiate c args => c.Known ∧ ∀ value ∈ args, value.Known happened s
  | .bind method o => method.KnownMethod ∧ (Value.instance o).Known happened s

/-- A task that is known begins in a machine in which all values are. -/
structure Moment.Known (happened : Moment → Prop) (moment : Moment) : Prop where
  task : moment.task.Known happened moment.machine.store
  machine : moment.machine.Known happened

namespace Run

variable {happened : Moment → Prop}

theorem known_resultOf {m : Machine} {f : Closure} {flow : Flow} (hm : m.Known happened)
    (hflow : flow.Known happened m.store) :
    Keeps (known happened) (resultOf f flow) m fun value after =>
      value.Known happened after.store := by
  unfold resultOf
  split
  · have hback : Machine.Known happened { m with current := f.frame } := hm.of_store_eq rfl
    refine (known_within (known_readAt hback 0 "this")).imp ?_
    rintro value after - ⟨inner, ⟨hvalue, rfl, -⟩, hstore⟩
    rw [← hstore]
    exact hvalue
  · cases flow with
    | returned value => exact keeps_pure hm hflow
    | normal => exact keeps_pure hm trivial

mutual

theorem known_execute (hclosed : Moment.Closed happened) :
    ∀ (steps : Nat) (s : Stmt) {m : Machine}, m.Known happened → s.Known →
    happened ⟨.execute s, steps, m⟩ →
    Keeps (known happened) (execute steps s) m fun flow after => flow.Known happened after.store
  | 0, _, _, hm, _, _ => known_throw hm _
  | steps + 1, .expression value, m, hm, hs, hh => by
    rw [execute]
    have hvalue := hs.1
    rw [Stmt.WellFormed] at hvalue
    refine (known_evaluate hclosed steps value hm hvalue (hclosed hh .expression)).bind ?_
    exact fun _ after hafter _ _ => keeps_pure hafter trivial
  | steps + 1, .print value, m, hm, hs, hh => by
    rw [execute]
    have hvalue := hs.1
    rw [Stmt.WellFormed] at hvalue
    refine (known_evaluate hclosed steps value hm hvalue (hclosed hh .print)).bind ?_
    intro _ middle hmiddle _ _
    refine (known_write hmiddle _).bind fun _ after hafter _ _ => ?_
    exact keeps_pure hafter trivial
  | steps + 1, .var name value, m, hm, hs, hh => by
    rw [execute]
    have hvalue := hs.1
    rw [Stmt.WellFormed] at hvalue
    refine (known_evaluateOptional hclosed steps value hm hvalue.2 (hclosed hh .var)).bind ?_
    intro result middle hmiddle _ hresult
    refine (known_currentFrame hmiddle).bind ?_
    rintro _ middle - - rfl
    refine (known_define hmiddle _ hvalue.1.ne_this hresult).bind fun _ after hafter _ _ => ?_
    exact keeps_pure hafter trivial
  | steps + 1, .block body, m, hm, hs, hh => by
    rw [execute, blockFrame_bind]
    refine (known_blockFrame hm).run.bind ?_
    rintro frame middle hmiddle - ⟨hframe, -⟩
    have hentered : Machine.Known happened { middle with current := frame } :=
      hmiddle.of_store_eq rfl
    refine (known_within (known_executeAll hclosed steps body hentered hs.block
      (hclosed hh (.block hframe)))).imp ?_
    rintro flow after - ⟨inner, hflow, hstore⟩
    rw [← hstore]
    exact hflow
  | steps + 1, .ifElse condition thenBranch none, m, hm, hs, hh => by
    rw [execute]
    refine (known_evaluate hclosed steps condition hm hs.ifCondition
      (hclosed hh .ifCondition)).run.bind ?_
    rintro value middle hmiddle - ⟨hrun, -⟩
    split
    · rename_i hvalue
      exact known_execute hclosed steps thenBranch hmiddle hs.thenBranch
        (hclosed hh (.thenBranch hrun hvalue))
    · exact keeps_pure hmiddle trivial
  | steps + 1, .ifElse condition thenBranch (some elseBranch), m, hm, hs, hh => by
    rw [execute]
    refine (known_evaluate hclosed steps condition hm hs.ifCondition
      (hclosed hh .ifCondition)).run.bind ?_
    rintro value middle hmiddle - ⟨hrun, -⟩
    split
    · rename_i hvalue
      exact known_execute hclosed steps thenBranch hmiddle hs.thenBranch
        (hclosed hh (.thenBranch hrun hvalue))
    · rename_i hvalue
      exact known_execute hclosed steps elseBranch hmiddle hs.elseBranch
        (hclosed hh (.elseBranch hrun (Bool.not_eq_true _ ▸ hvalue)))
  | steps + 1, .whileLoop condition body, m, hm, hs, hh => by
    rw [execute]
    refine (known_evaluate hclosed steps condition hm hs.whileCondition
      (hclosed hh .condition)).run.bind ?_
    rintro value middle hmiddle - ⟨hrun, -⟩
    split
    · rename_i hvalue
      refine (known_execute hclosed steps body hmiddle hs.whileBody
        (hclosed hh (.round hrun hvalue))).run.bind ?_
      rintro flow after hafter - ⟨hbody, hflow⟩
      cases flow with
      | returned value => exact keeps_pure hafter hflow
      | normal =>
        exact known_execute hclosed steps (.whileLoop condition body) hafter hs
          (hclosed hh (.again hrun hvalue hbody))
    · exact keeps_pure hmiddle trivial
  | steps + 1, .function declaration, m, hm, hs, hh => by
    rw [execute]
    refine (known_declareFunction hm hs.declaration).bind fun _ after hafter _ _ => ?_
    exact keeps_pure hafter trivial
  | steps + 1, .return _ value, m, hm, hs, hh => by
    rw [execute]
    have hvalue := hs.1
    rw [Stmt.WellFormed] at hvalue
    refine (known_evaluateOptional hclosed steps value hm hvalue (hclosed hh .returned)).bind ?_
    exact fun result after hafter _ hresult => keeps_pure hafter hresult
  | steps + 1, .class name superclass methods, m, hm, hs, hh => by
    rw [execute]
    refine (known_declareClass hm hs.methods.1 superclass hs.methods.2).bind ?_
    exact fun _ after hafter _ _ => keeps_pure hafter trivial

theorem known_executeAll (hclosed : Moment.Closed happened) :
    ∀ (steps : Nat) (body : List Stmt) {m : Machine}, m.Known happened →
    KnownStatements body → happened ⟨.executeAll body, steps, m⟩ →
    Keeps (known happened) (executeAll steps body) m fun flow after =>
      flow.Known happened after.store
  | 0, _, _, hm, _, _ => known_throw hm _
  | steps + 1, [], m, hm, _, _ => by
    rw [executeAll]
    exact keeps_pure hm trivial
  | steps + 1, s :: rest, m, hm, hbody, hh => by
    rw [executeAll]
    refine (known_execute hclosed steps s hm hbody.head (hclosed hh .head)).run.bind ?_
    rintro flow after hafter - ⟨hs, hflow⟩
    cases flow with
    | returned value => exact keeps_pure hafter hflow
    | normal => exact known_executeAll hclosed steps rest hafter hbody.tail (hclosed hh (.tail hs))

theorem known_evaluateOptional (hclosed : Moment.Closed happened) :
    ∀ (steps : Nat) (value : Option Expr) {m : Machine},
    m.Known happened → (∀ e, value = some e → e.WellFormed) →
    happened ⟨.evaluateOptional value, steps, m⟩ →
    Keeps (known happened) (evaluateOptional steps value) m fun result after =>
      result.Known happened after.store
  | 0, _, _, hm, _, _ => known_throw hm _
  | steps + 1, none, m, hm, _, _ => by
    rw [evaluateOptional]
    exact keeps_pure hm trivial
  | steps + 1, some e, m, hm, hvalue, hh => by
    rw [evaluateOptional]
    exact known_evaluate hclosed steps e hm (hvalue e rfl) (hclosed hh .optional)

theorem known_evaluate (hclosed : Moment.Closed happened) :
    ∀ (steps : Nat) (e : Expr) {m : Machine}, m.Known happened →
    e.WellFormed → happened ⟨.evaluate e, steps, m⟩ →
    Keeps (known happened) (evaluate steps e) m fun value after =>
      value.Known happened after.store
  | 0, _, _, hm, _, _ => known_throw hm _
  | steps + 1, .literal value, m, hm, _, _ => by
    rw [evaluate]
    exact keeps_pure hm (Literal.known_value value)
  | steps + 1, .grouping inner, m, hm, he, hh => by
    rw [evaluate]
    exact known_evaluate hclosed steps inner hm he (hclosed hh .grouping)
  | steps + 1, .unary op line operand, m, hm, he, hh => by
    rw [evaluate]
    refine (known_evaluate hclosed steps operand hm he (hclosed hh .unary)).bind ?_
    intro _ after hafter _ _
    exact known_orFault hafter _ fun result hresult => (UnaryOp.plain_of_apply hresult).known
  | steps + 1, .binary op line left right, m, hm, he, hh => by
    rw [evaluate]
    refine (known_evaluate hclosed steps left hm he.1 (hclosed hh .binaryLeft)).run.bind ?_
    rintro _ middle hmiddle - ⟨hleft, -⟩
    refine (known_evaluate hclosed steps right hmiddle he.2
      (hclosed hh (.binaryRight hleft))).bind ?_
    intro _ after hafter _ _
    exact known_orFault hafter _ fun result hresult => (BinaryOp.plain_of_apply hresult).known
  | steps + 1, .logical op line left right, m, hm, he, hh => by
    rw [evaluate]
    refine (known_evaluate hclosed steps left hm he.1 (hclosed hh .logicalLeft)).run.bind ?_
    rintro value after hafter - ⟨hleft, hvalue⟩
    split
    · exact keeps_pure hafter hvalue
    · rename_i hdecides
      exact known_evaluate hclosed steps right hafter he.2
        (hclosed hh (.logicalRight hleft (Bool.not_eq_true _ ▸ hdecides)))
  | steps + 1, .variable name id, m, hm, _, _ => by
    rw [evaluate]
    exact known_read hm name id
  | steps + 1, .assign name id value, m, hm, he, hh => by
    rw [evaluate]
    refine (known_evaluate hclosed steps value hm he.1 (hclosed hh .assigned)).bind ?_
    intro result middle hmiddle _ hresult
    refine (known_assign hmiddle he.2.ne_this id hresult).bind fun _ after hafter hlater _ => ?_
    exact keeps_pure hafter (hresult.mono hlater)
  | steps + 1, .call callee line args, m, hm, he, hh => by
    rw [evaluate]
    refine (known_evaluate hclosed steps callee hm he.1 (hclosed hh .callee)).run.bind ?_
    rintro value middle hmiddle - ⟨hcallee, hvalue⟩
    refine (known_evaluateAll hclosed steps args hmiddle he.2
      (hclosed hh (.arguments hcallee))).run.bind ?_
    rintro values after hafter hlater ⟨hargs, hvalues⟩
    exact known_call hclosed steps line hafter (hvalue.mono hlater) hvalues
      (hclosed hh (.call hcallee hargs))
  | steps + 1, .get object name, m, hm, he, hh => by
    rw [evaluate]
    refine (known_evaluate hclosed steps object hm he (hclosed hh .getObject)).run.bind ?_
    rintro owner after hafter - ⟨hobject, howner⟩
    cases owner with
    | «instance» o =>
      exact known_property hafter howner name fun f hfield hf =>
        hclosed hh (.method hobject hfield hf)
    | _ => exact known_fault hafter _ _
  | steps + 1, .set object name value, m, hm, he, hh => by
    rw [evaluate]
    refine (known_evaluate hclosed steps object hm he.1 (hclosed hh .setObject)).run.bind ?_
    rintro owner middle hmiddle - ⟨hobject, howner⟩
    cases owner with
    | «instance» o =>
      refine (known_evaluate hclosed steps value hmiddle he.2
        (hclosed hh (.setValue hobject))).bind ?_
      intro result after hafter _ hresult
      refine (known_setField hafter o name.text hresult).bind fun _ last hlast hlater _ => ?_
      exact keeps_pure hlast (hresult.mono hlater)
    | _ => exact known_fault hmiddle _ _
  | steps + 1, .this line id, m, hm, _, _ => by
    rw [evaluate]
    exact known_read hm _ id
  | steps + 1, .super line id method, m, hm, _, hh => by
    rw [evaluate]
    exact known_superMethod hm line id method fun inner c o f hhops hsuper hthis hf =>
      hclosed hh (.superMethod hhops hsuper hthis hf)

theorem known_evaluateAll (hclosed : Moment.Closed happened) :
    ∀ (steps : Nat) (args : List Expr) {m : Machine}, m.Known happened →
    WellFormedArguments args → happened ⟨.evaluateAll args, steps, m⟩ →
    Keeps (known happened) (evaluateAll steps args) m fun values after =>
      ∀ value ∈ values, value.Known happened after.store
  | 0, _, _, hm, _, _ => known_throw hm _
  | steps + 1, [], m, hm, _, _ => by
    rw [evaluateAll]
    exact keeps_pure hm nofun
  | steps + 1, e :: rest, m, hm, hargs, hh => by
    rw [evaluateAll]
    rw [WellFormedArguments] at hargs
    refine (known_evaluate hclosed steps e hm hargs.1 (hclosed hh .argument)).run.bind ?_
    rintro value middle hmiddle - ⟨he, hvalue⟩
    refine (known_evaluateAll hclosed steps rest hmiddle hargs.2
      (hclosed hh (.otherArguments he))).bind ?_
    intro values after hafter hlater hvalues
    exact keeps_pure hafter (List.forall_mem_cons.mpr ⟨hvalue.mono hlater, hvalues⟩)

theorem known_call (hclosed : Moment.Closed happened) :
    ∀ (steps : Nat) {callee : Value} (line : Nat) {args : List Value} {m : Machine},
    m.Known happened → callee.Known happened m.store →
    (∀ value ∈ args, value.Known happened m.store) →
    happened ⟨.call callee line args, steps, m⟩ →
    Keeps (known happened) (call steps callee line args) m fun value after =>
      value.Known happened after.store
  | 0, _, _, _, _, hm, _, _, _ => known_throw hm _
  | steps + 1, callee, line, args, m, hm, hcallee, hargs, hh => by
    unfold call
    rcases harity : callee.arity? with _ | arity
    · exact known_fault hm _ _
    · by_cases hlength : args.length = arity
      · simp only [hlength, ne_eq, not_true_eq_false, if_false]
        cases callee with
        | native function => exact known_clock hm
        | function identity f =>
          exact known_invoke hclosed steps hm hcallee hargs
            (hclosed hh (.function (hlength.trans (Option.some.inj harity).symm)))
        | «class» c =>
          exact known_instantiate hclosed steps hm hcallee hargs
            (hclosed hh (.construction (hlength.trans (Option.some.inj harity).symm)))
        | _ => exact known_fault hm _ _
      · simp only [hlength, ne_eq, not_false_eq_true, if_true]
        exact known_fault hm _ _

theorem known_invoke (hclosed : Moment.Closed happened) :
    ∀ (steps : Nat) {f : Closure} {args : List Value} {m : Machine},
    m.Known happened → f.Known happened m.store → (∀ value ∈ args, value.Known happened m.store) →
    happened ⟨.invoke f args, steps, m⟩ →
    Keeps (known happened) (invoke steps f args) m fun value after =>
      value.Known happened after.store
  | 0, _, _, _, hm, _, _, _ => known_throw hm _
  | steps + 1, f, args, m, hm, hf, hargs, hh => by
    rw [invoke_succ]
    refine (known_callFrame hm hf.1 hargs).run.bind ?_
    rintro frame middle hmiddle - ⟨hframe, -⟩
    have hentered : Machine.Known happened { middle with current := frame } :=
      hmiddle.of_store_eq rfl
    refine (known_within (known_executeAll hclosed steps f.declaration.body hentered hf.1.body
      (hclosed hh (.body hframe)))).bind ?_
    rintro flow after hafter - ⟨inner, hflow, hstore⟩
    rw [hstore] at hflow
    exact known_resultOf hafter hflow

theorem known_instantiate (hclosed : Moment.Closed happened) :
    ∀ (steps : Nat) {c : ClassValue} {args : List Value} {m : Machine},
    m.Known happened → c.Known → (∀ value ∈ args, value.Known happened m.store) →
    happened ⟨.instantiate c args, steps, m⟩ →
    Keeps (known happened) (instantiate steps c args) m fun value after =>
      value.Known happened after.store
  | 0, _, _, _, hm, _, _, _ => known_throw hm _
  | steps + 1, c, args, m, hm, hc, hargs, hh => by
    rw [instantiate]
    refine (known_newInstance hm hc).run.bind ?_
    rintro o m₁ hm₁ hlater₁ ⟨hnew, ho, -⟩
    rcases hinit : c.initializer? with _ | method
    · exact keeps_pure hm₁ ho
    · have hmethod := (hc.findMethod? hinit).1
      refine (known_bindMethod hm₁ hmethod ho
        (hclosed hh (.initializer hnew hinit))).run.bind ?_
      rintro f m₂ hm₂ hlater₂ ⟨hbind, hf⟩
      have hargs₂ : ∀ value ∈ args, value.Known happened m₂.store := fun value hvalue =>
        ((hargs value hvalue).mono hlater₁).mono hlater₂
      refine (known_invoke hclosed steps hm₂ hf hargs₂
        (hclosed hh (.initialization hnew hinit hbind))).bind fun _ m₃ hm₃ hlater₃ _ => ?_
      exact keeps_pure hm₃ ((ho.mono hlater₂).mono hlater₃)

end

theorem known_executeTop (hclosed : Moment.Closed happened) (steps : Nat) :
    ∀ (program : List Stmt) {m : Machine}, m.Known happened → KnownStatements program → happened ⟨.program program, steps, m⟩ →
    Keeps (known happened) (executeTop steps program) m fun _ _ => True
  | [], m, hm, _, _ => by
    rw [executeTop]
    exact keeps_pure hm trivial
  | s :: rest, m, hm, hprogram, hh => by
    rw [executeTop]
    refine (known_execute hclosed steps s hm hprogram.head (hclosed hh .first)).run.bind ?_
    rintro flow after hafter - ⟨hs, -⟩
    exact known_executeTop hclosed steps rest hafter hprogram.tail (hclosed hh (.next hs))

end Run

/-! ### What a known moment starts -/

namespace Moment

open Run

/-- What a known moment starts is known. -/
theorem Known.starts {happened : Moment → Prop} (hclosed : Closed happened) {a b : Moment}
    (ha : a.Known happened) (hh : happened a) (hstarts : a.Starts b) : b.Known happened := by
  obtain ⟨htask, hm⟩ := ha
  cases hstarts
  -- Programs
  case first => exact ⟨htask.head, hm⟩
  case next s rest n m after flow hs =>
    have hs := (known_execute hclosed n s hm htask.head (hclosed hh .first)).of_ok hs
    exact ⟨htask.tail, hs.1⟩
  -- Statements
  case expression =>
    have he := htask.1
    rw [Stmt.WellFormed] at he
    exact ⟨he, hm⟩
  case print =>
    have he := htask.1
    rw [Stmt.WellFormed] at he
    exact ⟨he, hm⟩
  case var =>
    have hvalue := htask.1
    rw [Stmt.WellFormed] at hvalue
    exact ⟨hvalue.2, hm⟩
  case block body n m after frame hframe =>
    have hafter := ((known_blockFrame hm).of_ok hframe).1
    exact ⟨htask.block, hafter.of_store_eq rfl⟩
  case ifCondition => exact ⟨htask.ifCondition, hm⟩
  case thenBranch e thenBranch elseBranch n m after value he hvalue =>
    have he := (known_evaluate hclosed n e hm htask.ifCondition (hclosed hh .ifCondition)).of_ok he
    exact ⟨htask.thenBranch, he.1⟩
  case elseBranch e thenBranch elseBranch n m after value he hvalue =>
    have he := (known_evaluate hclosed n e hm htask.ifCondition (hclosed hh .ifCondition)).of_ok he
    exact ⟨htask.elseBranch, he.1⟩
  case condition => exact ⟨htask.whileCondition, hm⟩
  case round e body n m after value he hvalue =>
    have he := (known_evaluate hclosed n e hm htask.whileCondition (hclosed hh .condition)).of_ok he
    exact ⟨htask.whileBody, he.1⟩
  case again e body n m middle after value he hvalue hbody =>
    have hmiddle := (known_evaluate hclosed n e hm htask.whileCondition
      (hclosed hh .condition)).of_ok he
    have hafter := (known_execute hclosed n body hmiddle.1 htask.whileBody
      (hclosed hh (.round he hvalue))).of_ok hbody
    exact ⟨htask, hafter.1⟩
  case returned =>
    have hvalue := htask.1
    rw [Stmt.WellFormed] at hvalue
    exact ⟨hvalue, hm⟩
  case head => exact ⟨htask.head, hm⟩
  case tail s rest n m after hs =>
    have hs := (known_execute hclosed n s hm htask.head (hclosed hh .head)).of_ok hs
    exact ⟨htask.tail, hs.1⟩
  -- Expressions
  case optional e n m => exact ⟨htask e rfl, hm⟩
  case grouping => exact ⟨htask, hm⟩
  case unary => exact ⟨htask, hm⟩
  case binaryLeft => exact ⟨htask.1, hm⟩
  case binaryRight op line left right n m after value hleft =>
    have hleft := (known_evaluate hclosed n left hm htask.1 (hclosed hh .binaryLeft)).of_ok hleft
    exact ⟨htask.2, hleft.1⟩
  case logicalLeft => exact ⟨htask.1, hm⟩
  case logicalRight op line left right n m after value hleft hvalue =>
    have hleft := (known_evaluate hclosed n left hm htask.1 (hclosed hh .logicalLeft)).of_ok hleft
    exact ⟨htask.2, hleft.1⟩
  case assigned => exact ⟨htask.1, hm⟩
  case callee => exact ⟨htask.1, hm⟩
  case arguments callee line args n m after value hcallee =>
    have hcallee := (known_evaluate hclosed n callee hm htask.1 (hclosed hh .callee)).of_ok hcallee
    exact ⟨htask.2, hcallee.1⟩
  case call callee line args n m middle after value values hcallee hargs =>
    have hmiddle := (known_evaluate hclosed n callee hm htask.1 (hclosed hh .callee)).of_ok hcallee
    have hafter := (known_evaluateAll hclosed n args hmiddle.1 htask.2
      (hclosed hh (.arguments hcallee))).of_ok hargs
    exact ⟨⟨hmiddle.2.2.mono hafter.2.1, hafter.2.2⟩, hafter.1⟩
  case getObject => exact ⟨htask, hm⟩
  case method object name n m after o f hobject hfield hf =>
    have ho := (known_evaluate hclosed n object hm htask (hclosed hh .getObject)).of_ok hobject
    exact ⟨⟨(ho.2.2.2.findMethod? hf).1, ho.2.2⟩, ho.1⟩
  case setObject => exact ⟨htask.1, hm⟩
  case setValue object name e n m after o hobject =>
    have ho := (known_evaluate hclosed n object hm htask.1 (hclosed hh .setObject)).of_ok hobject
    exact ⟨htask.2, ho.1⟩
  case superMethod line id name n inner m c o f hhops hsuper hthis hf =>
    obtain ⟨_, -, hparent⟩ := Store.local?_of_getAt hsuper
    obtain ⟨_, -, hreceiver⟩ := Store.local?_of_getAt hthis
    have hc : c.Known := hm.bound _ _ _ hparent
    exact ⟨⟨(hc.findMethod? hf).1, hm.bound _ _ _ hreceiver⟩, hm⟩
  case argument =>
    rw [Task.Known, WellFormedArguments] at htask
    exact ⟨htask.1, hm⟩
  case otherArguments e rest n m after value he =>
    rw [Task.Known, WellFormedArguments] at htask
    have he := (known_evaluate hclosed n e hm htask.1 (hclosed hh .argument)).of_ok he
    exact ⟨htask.2, he.1⟩
  -- Calls
  case function => exact ⟨htask, hm⟩
  case construction => exact ⟨htask, hm⟩
  case body f args n m after frame hframe =>
    have hafter := ((known_callFrame hm htask.1.1 htask.2).of_ok hframe).1
    exact ⟨htask.1.1.body, hafter.of_store_eq rfl⟩
  case initializer c args n m after o method ho hmethod =>
    have hafter := (known_newInstance hm htask.1).of_ok ho
    exact ⟨⟨(htask.1.findMethod? hmethod).1, hafter.2.2.1⟩, hafter.1⟩
  case initialization c args n m middle after o method f ho hmethod hf =>
    have hmiddle := (known_newInstance hm htask.1).of_ok ho
    have hbound := (known_bindMethod hmiddle.1 (htask.1.findMethod? hmethod).1 hmiddle.2.2.1
      (hclosed hh (.initializer ho hmethod))).of_ok hf
    refine ⟨⟨hbound.2.2, fun value hvalue => ?_⟩, hbound.1⟩
    exact ((htask.2 value hvalue).mono hmiddle.2.1).mono hbound.2.1

/-- All that a known moment reaches is known. -/
theorem Known.reaches {happened : Moment → Prop} (hclosed : Closed happened) {a b : Moment}
    (ha : a.Known happened) (hh : happened a) (hreaches : a.Reaches b) : b.Known happened := by
  suffices h : b.Known happened ∧ happened b from h.1
  induction hreaches with
  | refl => exact ⟨ha, hh⟩
  | tail _ hstarts ih => exact ⟨ih.1.starts hclosed ih.2 hstarts, hclosed ih.2 hstarts⟩

end Moment

end Treewalk
