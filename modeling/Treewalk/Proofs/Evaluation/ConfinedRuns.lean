import Treewalk.Proofs.Evaluation.Comparing
import Treewalk.Proofs.Evaluation.Confinement
import Treewalk.Proofs.Evaluation.Filling

/-!
# Calls touch only what they can reach

**Whatever a call changes, it could get at from the callee, from an argument, or from the global
frame.**  The cells that these reach, together with those that the call makes, are closed under
everything that a program does: the frame of a call is made inside the frame of the function, a
bound method inside that of the method, and no action looks at the frame of the caller.  So the
frames of the caller that no closure has captured are as they were.

The induction is on the number of steps, as it is for soundness; each part of a program keeps to a
set that is the same for all of them.
-/

namespace Treewalk

/-- A returned value holds only what is in the set. -/
def Flow.Within (A : Cell → Prop) : Flow → Prop
  | .normal => True
  | .returned value => value.Within A

namespace Run

variable {A : Cell → Prop} {before : Store}

/-! ### Activations -/

/-- What a function gives for the way in which its body ended. -/
def resultOf (f : Closure) (flow : Flow) : Run Value :=
  if f.isInitializer then
    within f.frame (readAt 0 "this")
  else
    match flow with
    | .returned value => pure value
    | .normal => pure .nil

/-- An activation makes its frame, runs the body in it, and looks at how the body ended. -/
theorem invoke_succ (steps : Nat) (f : Closure) (args : List Value) :
    invoke (steps + 1) f args = callFrame f args >>= fun frame =>
      within frame (executeAll steps f.declaration.body) >>= resultOf f := by
  rw [invoke, callFrame_bind]
  rfl

theorem confined_callFrame {f : Closure} {args : List Value} {m : Machine}
    (hm : before.Confined A m.store) (hf : A (.frame f.frame))
    (hargs : ∀ value ∈ args, value.Within A) :
    Keeps (confinement A before) (callFrame f args) m fun frame _ => A (.frame frame) := by
  unfold callFrame
  refine (confined_child hm hf).bind fun frame middle hmiddle _ hframe => ?_
  refine (confined_bindParams hframe hmiddle hargs).bind fun _ after hafter _ _ => ?_
  exact keeps_pure hafter hframe

theorem confined_resultOf {f : Closure} {flow : Flow} {m : Machine}
    (hm : before.Confined A m.store) (hf : A (.frame f.frame)) (hflow : flow.Within A) :
    Keeps (confinement A before) (resultOf f flow) m fun value _ => value.Within A := by
  unfold resultOf
  split
  · have hback : before.Confined A { m with current := f.frame }.store := hm
    refine confined_within ((confined_readAt hback hf 0 "this").imp ?_)
    exact fun _ _ _ hvalue => hvalue.1
  · cases flow with
    | returned value => exact keeps_pure hm hflow
    | normal => exact keeps_pure hm Value.within_nil

/-! ### Statements and expressions -/

mutual

theorem confined_execute (hglobals : A (.frame Store.globals)) :
    ∀ (steps : Nat) (s : Stmt) {m : Machine}, before.Confined A m.store → A (.frame m.current) →
    Keeps (confinement A before) (execute steps s) m fun flow _ => flow.Within A
  | 0, _, _, hm, _ => confined_throw hm _
  | steps + 1, .expression value, m, hm, hcurrent => by
    rw [execute]
    refine (confined_evaluate hglobals steps value hm hcurrent).bind fun _ after hafter _ _ => ?_
    exact keeps_pure hafter trivial
  | steps + 1, .print value, m, hm, hcurrent => by
    rw [execute]
    refine (confined_evaluate hglobals steps value hm hcurrent).bind fun _ middle hmiddle _ _ => ?_
    refine (confined_write hmiddle _).bind fun _ after hafter _ _ => ?_
    exact keeps_pure hafter trivial
  | steps + 1, .var name initializer, m, hm, hcurrent => by
    rw [execute]
    refine (confined_evaluateOptional hglobals steps initializer hm hcurrent).bind ?_
    intro value middle hmiddle hlater hvalue
    refine (confined_currentFrame hmiddle).bind ?_
    rintro _ middle - - ⟨rfl, rfl⟩
    have hcurrent' : A (.frame middle.current) := hlater ▸ hcurrent
    refine (confined_define hmiddle hcurrent' name.text hvalue).bind fun _ after hafter _ _ => ?_
    exact keeps_pure hafter trivial
  | steps + 1, .block body, m, hm, hcurrent => by
    rw [execute]
    refine (confined_currentFrame hm).bind ?_
    rintro _ m - - ⟨rfl, rfl⟩
    refine (confined_child hm hcurrent).bind fun frame middle hmiddle _ hframe => ?_
    exact confined_within (confined_executeAll hglobals steps body hmiddle hframe)
  | steps + 1, .ifElse condition thenBranch none, m, hm, hcurrent => by
    rw [execute]
    refine (confined_evaluate hglobals steps condition hm hcurrent).bind ?_
    intro value middle hmiddle hlater _
    split
    · exact confined_execute hglobals steps thenBranch hmiddle (hlater ▸ hcurrent)
    · exact keeps_pure hmiddle trivial
  | steps + 1, .ifElse condition thenBranch (some elseBranch), m, hm, hcurrent => by
    rw [execute]
    refine (confined_evaluate hglobals steps condition hm hcurrent).bind ?_
    intro value middle hmiddle hlater _
    split
    · exact confined_execute hglobals steps thenBranch hmiddle (hlater ▸ hcurrent)
    · exact confined_execute hglobals steps elseBranch hmiddle (hlater ▸ hcurrent)
  | steps + 1, .whileLoop condition body, m, hm, hcurrent => by
    rw [execute]
    refine (confined_evaluate hglobals steps condition hm hcurrent).bind ?_
    intro value middle hmiddle hlater _
    have hcurrent' : A (.frame middle.current) := hlater ▸ hcurrent
    split
    · refine (confined_execute hglobals steps body hmiddle hcurrent').bind ?_
      intro flow after hafter hlater' hflow
      cases flow with
      | returned value => exact keeps_pure hafter hflow
      | normal =>
        exact confined_execute hglobals steps (.whileLoop condition body) hafter
          (hlater' ▸ hcurrent')
    · exact keeps_pure hmiddle trivial
  | steps + 1, .function declaration, m, hm, hcurrent => by
    rw [execute]
    refine (confined_declareFunction hm hcurrent declaration).bind fun _ after hafter _ _ => ?_
    exact keeps_pure hafter trivial
  | steps + 1, .return _ value, m, hm, hcurrent => by
    rw [execute]
    refine (confined_evaluateOptional hglobals steps value hm hcurrent).bind ?_
    intro result after hafter _ hresult
    exact keeps_pure hafter hresult
  | steps + 1, .class name superclass methods, m, hm, hcurrent => by
    rw [execute]
    refine (confined_declareClass hm hglobals hcurrent name superclass methods).bind ?_
    intro _ after hafter _ _
    exact keeps_pure hafter trivial

theorem confined_executeAll (hglobals : A (.frame Store.globals)) :
    ∀ (steps : Nat) (body : List Stmt) {m : Machine}, before.Confined A m.store →
    A (.frame m.current) →
    Keeps (confinement A before) (executeAll steps body) m fun flow _ => flow.Within A
  | 0, _, _, hm, _ => confined_throw hm _
  | steps + 1, [], m, hm, _ => by
    rw [executeAll]
    exact keeps_pure hm trivial
  | steps + 1, s :: rest, m, hm, hcurrent => by
    rw [executeAll]
    refine (confined_execute hglobals steps s hm hcurrent).bind ?_
    intro flow after hafter hlater hflow
    cases flow with
    | returned value => exact keeps_pure hafter hflow
    | normal => exact confined_executeAll hglobals steps rest hafter (hlater ▸ hcurrent)

theorem confined_evaluateOptional (hglobals : A (.frame Store.globals)) :
    ∀ (steps : Nat) (value : Option Expr) {m : Machine}, before.Confined A m.store →
    A (.frame m.current) →
    Keeps (confinement A before) (evaluateOptional steps value) m fun result _ => result.Within A
  | 0, _, _, hm, _ => confined_throw hm _
  | steps + 1, none, m, hm, _ => by
    rw [evaluateOptional]
    exact keeps_pure hm Value.within_nil
  | steps + 1, some value, m, hm, hcurrent => by
    rw [evaluateOptional]
    exact confined_evaluate hglobals steps value hm hcurrent

theorem confined_evaluate (hglobals : A (.frame Store.globals)) :
    ∀ (steps : Nat) (e : Expr) {m : Machine}, before.Confined A m.store → A (.frame m.current) →
    Keeps (confinement A before) (evaluate steps e) m fun value _ => value.Within A
  | 0, _, _, hm, _ => confined_throw hm _
  | steps + 1, .literal value, m, hm, _ => by
    rw [evaluate]
    exact keeps_pure hm (Literal.within_value value)
  | steps + 1, .grouping inner, m, hm, hcurrent => by
    rw [evaluate]
    exact confined_evaluate hglobals steps inner hm hcurrent
  | steps + 1, .unary op line operand, m, hm, hcurrent => by
    rw [evaluate]
    refine (confined_evaluate hglobals steps operand hm hcurrent).bind fun _ after hafter _ _ => ?_
    exact confined_orFault hafter _ fun result hresult => (UnaryOp.plain_of_apply hresult).within
  | steps + 1, .binary op line left right, m, hm, hcurrent => by
    rw [evaluate]
    refine (confined_evaluate hglobals steps left hm hcurrent).bind ?_
    intro _ middle hmiddle hlater _
    refine (confined_evaluate hglobals steps right hmiddle (hlater ▸ hcurrent)).bind ?_
    intro _ after hafter _ _
    exact confined_orFault hafter _ fun result hresult => (BinaryOp.plain_of_apply hresult).within
  | steps + 1, .logical op _ left right, m, hm, hcurrent => by
    rw [evaluate]
    refine (confined_evaluate hglobals steps left hm hcurrent).bind ?_
    intro value after hafter hlater hvalue
    split
    · exact keeps_pure hafter hvalue
    · exact confined_evaluate hglobals steps right hafter (hlater ▸ hcurrent)
  | steps + 1, .variable name id, m, hm, hcurrent => by
    rw [evaluate]
    exact confined_read hm hglobals hcurrent name id
  | steps + 1, .assign name id value, m, hm, hcurrent => by
    rw [evaluate]
    refine (confined_evaluate hglobals steps value hm hcurrent).bind ?_
    intro result middle hmiddle hlater hresult
    refine (confined_assign hmiddle hglobals (hlater ▸ hcurrent) name id hresult).bind ?_
    intro _ after hafter _ _
    exact keeps_pure hafter hresult
  | steps + 1, .call callee line args, m, hm, hcurrent => by
    rw [evaluate]
    refine (confined_evaluate hglobals steps callee hm hcurrent).bind ?_
    intro callee middle hmiddle hlater hcallee
    refine (confined_evaluateAll hglobals steps args hmiddle (hlater ▸ hcurrent)).bind ?_
    intro args after hafter _ hargs
    exact confined_call hglobals steps line hafter hcallee hargs
  | steps + 1, .get object name, m, hm, hcurrent => by
    rw [evaluate]
    refine (confined_evaluate hglobals steps object hm hcurrent).bind ?_
    intro owner after hafter _ howner
    cases owner with
    | «instance» o => exact confined_property hafter howner name
    | _ => exact confined_fault hafter _ _
  | steps + 1, .set object name value, m, hm, hcurrent => by
    rw [evaluate]
    refine (confined_evaluate hglobals steps object hm hcurrent).bind ?_
    intro owner middle hmiddle hlater howner
    cases owner with
    | «instance» o =>
      refine (confined_evaluate hglobals steps value hmiddle (hlater ▸ hcurrent)).bind ?_
      intro result after hafter _ hresult
      refine (confined_setField hafter howner name.text hresult).bind fun _ last hlast _ _ => ?_
      exact keeps_pure hlast hresult
    | _ => exact confined_fault hmiddle _ _
  | steps + 1, .this line id, m, hm, hcurrent => by
    rw [evaluate]
    exact confined_read hm hglobals hcurrent _ id
  | steps + 1, .super line id method, m, hm, hcurrent => by
    rw [evaluate]
    exact confined_superMethod hm hcurrent line id method

theorem confined_evaluateAll (hglobals : A (.frame Store.globals)) :
    ∀ (steps : Nat) (args : List Expr) {m : Machine}, before.Confined A m.store →
    A (.frame m.current) →
    Keeps (confinement A before) (evaluateAll steps args) m
      fun values _ => ∀ value ∈ values, value.Within A
  | 0, _, _, hm, _ => confined_throw hm _
  | steps + 1, [], m, hm, _ => by
    rw [evaluateAll]
    exact keeps_pure hm nofun
  | steps + 1, e :: rest, m, hm, hcurrent => by
    rw [evaluateAll]
    refine (confined_evaluate hglobals steps e hm hcurrent).bind ?_
    intro value middle hmiddle hlater hvalue
    refine (confined_evaluateAll hglobals steps rest hmiddle (hlater ▸ hcurrent)).bind ?_
    intro values after hafter _ hvalues
    exact keeps_pure hafter (List.forall_mem_cons.mpr ⟨hvalue, hvalues⟩)

/-- The frame of the caller need not be in the set. -/
theorem confined_call (hglobals : A (.frame Store.globals)) :
    ∀ (steps : Nat) {callee : Value} (line : Nat) {args : List Value} {m : Machine},
    before.Confined A m.store → callee.Within A → (∀ value ∈ args, value.Within A) →
    Keeps (confinement A before) (call steps callee line args) m fun value _ => value.Within A
  | 0, _, _, _, _, hm, _, _ => confined_throw hm _
  | steps + 1, callee, line, args, m, hm, hcallee, hargs => by
    unfold call
    rcases harity : callee.arity? with _ | arity
    · exact confined_fault hm _ _
    · by_cases hlength : args.length = arity
      · simp only [hlength, ne_eq, not_true_eq_false, if_false]
        cases callee with
        | native function => exact confined_clock hm
        | function identity closure => exact confined_invoke hglobals steps hm hcallee.frame hargs
        | «class» c => exact confined_instantiate hglobals steps hm hcallee.class hargs
        | _ => exact confined_fault hm _ _
      · simp only [hlength, ne_eq, not_false_eq_true, if_true]
        exact confined_fault hm _ _

theorem confined_invoke (hglobals : A (.frame Store.globals)) :
    ∀ (steps : Nat) {f : Closure} {args : List Value} {m : Machine}, before.Confined A m.store →
    A (.frame f.frame) → (∀ value ∈ args, value.Within A) →
    Keeps (confinement A before) (invoke steps f args) m fun value _ => value.Within A
  | 0, _, _, _, hm, _, _ => confined_throw hm _
  | steps + 1, f, args, m, hm, hf, hargs => by
    rw [invoke_succ]
    refine (confined_callFrame hm hf hargs).bind fun frame m₁ hm₁ _ hframe => ?_
    have hentered : before.Confined A { m₁ with current := frame }.store := hm₁
    refine (confined_within (confined_executeAll hglobals steps f.declaration.body hentered
      hframe)).bind fun flow m₂ hm₂ _ hflow => ?_
    exact confined_resultOf hm₂ hf hflow

theorem confined_instantiate (hglobals : A (.frame Store.globals)) :
    ∀ (steps : Nat) {c : ClassValue} {args : List Value} {m : Machine},
    before.Confined A m.store → c.Within A → (∀ value ∈ args, value.Within A) →
    Keeps (confinement A before) (instantiate steps c args) m fun value _ => value.Within A
  | 0, _, _, _, hm, _, _ => confined_throw hm _
  | steps + 1, c, args, m, hm, hc, hargs => by
    rw [instantiate]
    refine (confined_newInstance hm hc).bind fun o m₁ hm₁ _ ho => ?_
    rcases hinit : c.initializer? with _ | initializer
    · exact keeps_pure hm₁ ho
    · have hmethod : A (.frame initializer.frame) := hc.findMethod? hinit
      refine (confined_bindMethod hm₁ hmethod ho).bind fun bound m₂ hm₂ _ hbound => ?_
      refine (confined_invoke hglobals steps hm₂ hbound hargs).bind fun _ m₃ hm₃ _ _ => ?_
      exact keeps_pure hm₃ ho

end

/-! ### The frame of an activation -/

theorem Keeps.left {α : Type} {d : Discipline} {x : Run α} {m : Machine} {Q : α → Machine → Prop}
    (h : Keeps d x m Q) : d.holds (left x m) ∧ d.later m (left x m) := by
  unfold Keeps at h
  unfold Run.left
  rcases hx : x m with ⟨a, after⟩ | ⟨halt, after⟩
  · rw [hx] at h
    exact ⟨h.1, h.2.1⟩
  · rw [hx] at h
    exact ⟨h.1, h.2.1⟩

/-- Parameters are bound without making frames. -/
theorem bindParams_ok (frame : FrameId) : ∀ (params : List Name) (args : List Value) (m : Machine),
    ∃ after, bindParams frame params args m = .ok ⟨⟩ after
      ∧ after.store.frames.size = m.store.frames.size
  | [], _, m => ⟨m, rfl, rfl⟩
  | _ :: _, [], m => ⟨m, rfl, rfl⟩
  | param :: params, argument :: args, m => by
    obtain ⟨after, hok, hsize⟩ := bindParams_ok frame params args
      (m.mapStore fun store => store.define frame param.text argument)
    refine ⟨after, hok, hsize.trans ?_⟩
    exact Store.size_define m.store frame param.text argument

/-- The frame of an activation is one that the store did not have before. -/
theorem callFrame_ok (f : Closure) (args : List Value) (m : Machine) :
    ∃ entered, callFrame f args m = .ok ⟨m.store.frames.size⟩ entered
      ∧ entered.store.frames.size = m.store.frames.size + 1 := by
  obtain ⟨entered, hok, hsize⟩ := bindParams_ok ⟨m.store.frames.size⟩ f.declaration.params args
    (m.allocate fun store => store.child f.frame).2
  refine ⟨entered, ?_, hsize.trans (Store.size_child m.store f.frame)⟩
  unfold callFrame
  show (bindParams ⟨m.store.frames.size⟩ f.declaration.params args >>= _)
    (m.allocate fun store => store.child f.frame).2 = _
  rw [bind_of_ok hok]
  rfl

/-- No store loses a frame, so the frame of an activation is there from then on. -/
theorem size_lt_size_left_invoke (steps : Nat) (f : Closure) (args : List Value) (m : Machine) :
    m.store.frames.size < (left (invoke (steps + 1) f args) m).store.frames.size := by
  obtain ⟨entered, hentered, hsize⟩ := callFrame_ok f args m
  rw [invoke_succ, left_bind_of_ok hentered]
  have hstart : entered.store.Confined (fun _ => True)
      { entered with current := ⟨m.store.frames.size⟩ }.store := .everything entered.store
  have hbody :=
    confined_within (confined_executeAll trivial steps f.declaration.body hstart trivial)
  have hresult : Keeps (confinement (fun _ => True) entered.store)
      (within ⟨m.store.frames.size⟩ (executeAll steps f.declaration.body) >>= resultOf f) entered
      fun value _ => value.Within fun _ => True :=
    hbody.bind fun flow after hafter _ hflow => confined_resultOf hafter trivial hflow
  have hgrown := hresult.left.1.frames
  omega

/-! ### Calls -/

/-- Of what there was before, a call changes only what the callee, an argument or the global frame
    reaches, however it ends; the variables of all other frames stay as they are.  Each activation
    of a function, in this call or any other, has a frame that the store did not have before, and
    that it has afterwards, so that no later activation gets it. -/
theorem call_confined (steps : Nat) (callee : Value) (line : Nat) (args : List Value)
    (m : Machine) :
    (∀ p, m.store.Has p → ¬ m.store.Same (left (call steps callee line args) m).store p →
        m.store.Reaches (callee :: args) p)
      ∧ (∀ f : FrameId, f.index < m.store.frames.size →
          ¬ m.store.Reaches (callee :: args) (.frame f) → ∀ name,
          (left (call steps callee line args) m).store.local? f name = m.store.local? f name)
      ∧ ∀ (steps : Nat) (f : Closure) (args : List Value) (m : Machine),
        ∃ entered, callFrame f args m = .ok ⟨m.store.frames.size⟩ entered
          ∧ invoke (steps + 1) f args m = (within ⟨m.store.frames.size⟩
              (executeAll steps f.declaration.body) >>= resultOf f) entered
          ∧ m.store.frames.size < (left (invoke (steps + 1) f args) m).store.frames.size := by
  have hroot : ∀ value ∈ callee :: args, value.Within
      (fun p => m.store.Reaches (callee :: args) p ∨ ¬ m.store.Has p) :=
    fun value hvalue p hp => Or.inl (.root hvalue hp)
  have hconfined := (confined_call (Or.inl .globals) steps line
    (Store.Confined.start m.store (callee :: args)) (hroot callee List.mem_cons_self)
    fun value hvalue => hroot value (List.mem_cons_of_mem _ hvalue)).left.1
  have hsame : ∀ p, m.store.Has p → ¬ m.store.Reaches (callee :: args) p →
      m.store.Same (left (call steps callee line args) m).store p := fun p hp hout =>
    hconfined.same p hp (not_or.mpr ⟨hout, not_not.mpr hp⟩)
  refine ⟨fun p hp hchanged => ?_, fun f hf hout => (hsame (.frame f) hf hout).local?, ?_⟩
  · exact by_contra fun hout => hchanged (hsame p hp hout)
  · intro steps f args m
    obtain ⟨entered, hentered, -⟩ := callFrame_ok f args m
    refine ⟨entered, hentered, ?_, size_lt_size_left_invoke steps f args m⟩
    rw [invoke_succ, bind_of_ok hentered]

/-- Two frames inside the global one.  The first binds `n`; the second is the current one. -/
def besideCounter : Machine where
  store :=
    { frames := #[⟨none, ∅⟩, ⟨some ⟨0⟩, (∅ : Bound).insert "n" (.bool true)⟩, ⟨some ⟨0⟩, ∅⟩]
      fields := #[] }
  current := ⟨2⟩
  hops := (∅ : HopTable).insert 0 1
  sink := .unlimited
  identities := 1
  clock := .steady

/-- A function that was declared in the first of these frames and assigns `nil` to `n`. -/
def resetCounter : Value :=
  .function 0 ⟨⟨⟨"reset", 1⟩, [], [.expression (.assign ⟨"n", 1⟩ 0 (.literal .nil))]⟩, ⟨1⟩, false⟩

theorem call_confined_resetCounter :
    ¬ besideCounter.store.Same (left (call 9 resetCounter 1 []) besideCounter).store (.frame ⟨1⟩)
      ∧ besideCounter.store.Reaches [resetCounter] (.frame ⟨1⟩) := by
  have hchanged : ¬ besideCounter.store.Same
      (left (call 9 resetCounter 1 []) besideCounter).store (.frame ⟨1⟩) := by
    intro hsame
    have hafter : (left (call 9 resetCounter 1 []) besideCounter).store.local? ⟨1⟩ "n" =
        some .nil := by decide +kernel
    have hbefore : besideCounter.store.local? ⟨1⟩ "n" = some (.bool true) := by decide +kernel
    have hlocal := hsame.local? "n"
    rw [hafter, hbefore] at hlocal
    cases hlocal
  exact ⟨hchanged, (call_confined 9 resetCounter 1 [] besideCounter).1 _ (by decide) hchanged⟩

end Run

end Treewalk
