import Treewalk.Proofs.Evaluation.Comparing
import Treewalk.Proofs.Evaluation.Returning
import Treewalk.Proofs.Session.Happening
import Treewalk.Proofs.Session.Retention

/-!
# Construction

**A call of a class that succeeds gives a new instance of exactly this class, initialized by one run
of the `init` that the class has or inherits.**  The call takes as many arguments as that `init` has
parameters.  How the run of `init` ends does not matter: the instance is handed out anyway.  An `init`
that is called by itself gives the instance it was bound to, which its frame still holds as `this`.
-/

namespace Treewalk

/-! ### Activations -/

/-- In the frame of an activation each parameter is bound to its argument, and nothing else is. -/
structure Store.Activation (s : Store) (f : Closure) (args : List Value) (frame : FrameId) :
    Prop where
  inside : s.enclosing? frame = some f.frame
  bound : ∀ pair ∈ f.declaration.params.zip args, s.local? frame pair.1.text = some pair.2
  only : ∀ name, name ∉ f.declaration.params.map Name.text → s.local? frame name = none

theorem FunctionDecl.Known.params {f : FunctionDecl} (h : f.Known) :
    (f.params.map Name.text).Nodup := by
  obtain ⟨-, -, inFunction, hchecked⟩ := h
  rcases f with ⟨name, params, body⟩
  rw [FunctionDecl.Checked] at hchecked
  exact hchecked.1

namespace Run

theorem bindParams_binds (frame : FrameId) : ∀ (params : List Name) (args : List Value)
    (m : Machine), frame.index < m.store.frames.size → (params.map Name.text).Nodup →
    ∃ after, bindParams frame params args m = .ok ⟨⟩ after ∧ after.current = m.current
      ∧ (∀ pair ∈ params.zip args, after.store.local? frame pair.1.text = some pair.2)
      ∧ (∀ g name, g ≠ frame ∨ name ∉ params.map Name.text →
        after.store.local? g name = m.store.local? g name)
      ∧ ∀ g, after.store.enclosing? g = m.store.enclosing? g
  | [], _, m, _, _ => ⟨m, rfl, rfl, nofun, fun _ _ _ => rfl, fun _ => rfl⟩
  | _ :: _, [], m, _, _ => ⟨m, rfl, rfl, nofun, fun _ _ _ => rfl, fun _ => rfl⟩
  | param :: params, argument :: args, m, hframe, hnodup => by
    rw [List.map_cons, List.nodup_cons] at hnodup
    have hsize : frame.index < (m.store.define frame param.text argument).frames.size := by
      rw [Store.size_define]
      exact hframe
    obtain ⟨after, hok, hcurrent, hbound, hothers, henclosing⟩ := bindParams_binds frame params args
      (m.mapStore fun s => s.define frame param.text argument) hsize hnodup.2
    refine ⟨after, hok, hcurrent, fun pair hpair => ?_, fun g name hname => ?_, fun g => ?_⟩
    · rw [List.zip_cons_cons] at hpair
      rcases List.mem_cons.mp hpair with rfl | hpair
      · -- The later parameters have other names.
        rw [hothers frame _ (Or.inr hnodup.1)]
        exact Store.local?_define_self hframe param.text argument
      · exact hbound pair hpair
    · rw [List.map_cons, List.mem_cons, not_or] at hname
      rw [hothers g name (hname.imp_right And.right)]
      exact Store.local?_define_of_ne (hname.imp_right And.left) m.store argument
    · rw [henclosing g]
      exact Store.enclosing?_define m.store frame g param.text argument

theorem callFrame_activation {f : Closure} {m entered : Machine} {args : List Value}
    {frame : FrameId} (hparams : (f.declaration.params.map Name.text).Nodup)
    (hf : f.frame.index < m.store.frames.size) (h : callFrame f args m = .ok frame entered) :
    entered.store.Activation f args frame ∧ entered.current = m.current
      ∧ ∀ g name, g.index < m.store.frames.size →
        entered.store.local? g name = m.store.local? g name := by
  have hsize := Store.child_lt_size m.store f.frame
  obtain ⟨after, hok, hcurrent, hbound, hothers, henclosing⟩ :=
    bindParams_binds (m.store.child f.frame).1 f.declaration.params args
      (m.mapStore fun s => (s.child f.frame).2) hsize hparams
  have hcall : callFrame f args m = .ok (m.store.child f.frame).1 after := by
    unfold callFrame
    show (bindParams (m.store.child f.frame).1 f.declaration.params args >>= _)
      (m.mapStore fun s => (s.child f.frame).2) = _
    rw [bind_of_ok hok]
    rfl
  rw [hcall] at h
  cases h
  refine ⟨⟨?_, hbound, fun name hname => ?_⟩, hcurrent, fun g name hg => ?_⟩
  · rw [henclosing]
    exact Store.enclosing?_child_self hf
  · rw [hothers _ name (Or.inr hname)]
    exact Store.local?_child_self m.store f.frame name
  · rw [hothers g name (Or.inl (Store.ne_child_of_lt hg f.frame))]
    exact Store.local?_child m.store f.frame g name

/-! ### Calls -/

/-- A call of a function that gives a value is a run of its body, which may end in any way. -/
theorem invoke_ok {f : Closure} {steps : Nat} {args : List Value} {m after : Machine} {value : Value}
    (h : invoke steps f args m = .ok value after) :
    ∃ k frame entered flow last, steps = k + 1 ∧ callFrame f args m = .ok frame entered
      ∧ executeAll k f.declaration.body { entered with current := frame } = .ok flow last
      ∧ resultOf f flow { last with current := entered.current } = .ok value after := by
  cases steps with
  | zero => cases h
  | succ k =>
    rw [invoke_succ] at h
    obtain ⟨frame, entered, hframe, h⟩ := ok_of_bind_eq_ok h
    obtain ⟨flow, middle, hbody, h⟩ := ok_of_bind_eq_ok h
    obtain ⟨last, hrun, rfl⟩ := ok_of_within_eq_ok hbody
    exact ⟨k, frame, entered, flow, last, rfl, hframe, hrun, h⟩

theorem readAt_ok {hops : Nat} {name : String} {m after : Machine} {value : Value}
    (h : readAt hops name m = .ok value after) :
    after = m ∧ m.store.getAt m.current hops name = .ok value := by
  rcases hget : m.store.getAt m.current hops name with breach | found
  · rw [readAt_of_error hget] at h
    cases h
  · rw [readAt_of_ok hget] at h
    cases h
    exact ⟨rfl, rfl⟩

/-- The machine stays as the body left it. -/
theorem resultOf_ok {f : Closure} {flow : Flow} {m after : Machine} {value : Value}
    (h : resultOf f flow m = .ok value after) : after = m := by
  unfold resultOf at h
  split at h
  · obtain ⟨inner, hread, rfl⟩ := ok_of_within_eq_ok h
    obtain ⟨rfl, -⟩ := readAt_ok hread
    rfl
  · cases flow <;> cases h <;> rfl

/-- The result of an initializer is what its frame holds as `this`. -/
theorem resultOf_initializer {f : Closure} (hf : f.isInitializer = true) {flow : Flow}
    {m after : Machine} {value : Value} (h : resultOf f flow m = .ok value after) :
    m.store.local? f.frame "this" = some value := by
  unfold resultOf at h
  rw [if_pos hf] at h
  obtain ⟨inner, hread, -⟩ := ok_of_within_eq_ok h
  obtain ⟨owner, howner, hlocal⟩ := Store.local?_of_getAt (readAt_ok hread).2
  cases howner
  exact hlocal

/-- A bound method is the method, but in a frame that holds the instance. -/
theorem bindMethod_binds {method f : Closure} {o : Instance} {m bound : Machine}
    (h : bindMethod method o m = .ok f bound) :
    f.declaration = method.declaration ∧ f.isInitializer = method.isInitializer
      ∧ bound.current = m.current ∧ bound.store.local? f.frame "this" = some (.instance o) := by
  rw [bindMethod_ok] at h
  cases h
  exact ⟨rfl, rfl, rfl, local?_childDefine m.store method.frame "this" (.instance o)⟩

theorem call_class_ok {c : ClassValue} {line steps : Nat} {args : List Value} {m after : Machine}
    {value : Value} (h : call steps (.class c) line args m = .ok value after) :
    ∃ k, steps = k + 1 ∧ args.length = c.arity ∧ instantiate k c args m = .ok value after := by
  cases steps with
  | zero => cases h
  | succ k =>
    unfold call at h
    dsimp only [Value.arity?] at h
    split at h
    · cases h
    · rename_i harity
      exact ⟨k, rfl, not_not.mp harity, h⟩

theorem instantiate_ok {c : ClassValue} {steps : Nat} {args : List Value} {m after : Machine}
    {value : Value} (h : instantiate steps c args m = .ok value after) :
    ∃ k, steps = k + 1 ∧ value = .instance (m.store.newInstance c).1
      ∧ (c.initializer? = none → after = m.mapStore fun s => (s.newInstance c).2)
      ∧ ∀ method, c.initializer? = some method → ∃ f bound result,
        bindMethod method (m.store.newInstance c).1 (m.mapStore fun s => (s.newInstance c).2)
            = .ok f bound
          ∧ invoke k f args bound = .ok result after := by
  cases steps with
  | zero => cases h
  | succ k =>
    rw [instantiate] at h
    obtain ⟨o, made, ho, h⟩ := ok_of_bind_eq_ok h
    cases ho
    rcases hinit : c.initializer? with _ | method
    · rw [hinit] at h
      cases h
      exact ⟨k, rfl, rfl, fun _ => rfl, nofun⟩
    · rw [hinit] at h
      obtain ⟨f, bound, hbind, h⟩ := ok_of_bind_eq_ok h
      obtain ⟨result, last, hinvoke, h⟩ := ok_of_bind_eq_ok h
      cases h
      refine ⟨k, rfl, rfl, nofun, fun found hfound => ?_⟩
      cases hfound
      exact ⟨f, bound, result, hbind, hinvoke⟩

theorem call_function_ok {f : Closure} {identity line steps : Nat} {args : List Value}
    {m after : Machine} {value : Value}
    (h : call steps (.function identity f) line args m = .ok value after) :
    ∃ k, steps = k + 1 ∧ args.length = f.arity ∧ invoke k f args m = .ok value after := by
  cases steps with
  | zero => cases h
  | succ k =>
    unfold call at h
    dsimp only [Value.arity?] at h
    split at h
    · cases h
    · rename_i harity
      exact ⟨k, rfl, not_not.mp harity, h⟩

end Run

/-! ### Initialization -/

open Run in
/-- One run of an `init` for an instance.  The method is bound to the instance, which its frame then
    holds as `this`, and the body is run with the arguments as parameters.  Nothing is made of the
    flow that the body ends with. -/
inductive Initializes (method : Closure) (args : List Value) (o : Instance) :
    Nat → Machine → Machine → Prop
  | run {k : Nat} {m bound entered last : Machine} {f : Closure} {frame : FrameId} {flow : Flow}
    (hbind : bindMethod method o m = .ok f bound) (hdeclaration : f.declaration = method.declaration)
    (hframe : callFrame f args bound = .ok frame entered)
    (hactivation : entered.store.Activation f args frame)
    (hthis : entered.store.local? f.frame "this" = some (.instance o))
    (hbody : executeAll k method.declaration.body { entered with current := frame }
      = .ok flow last) :
    Initializes method args o (k + 1) m { last with current := m.current }

/-- The machine makes an instance of the class that it does not hold yet.  Only the first `init`
    along the superclass chain is run, if there is one. -/
structure Constructs (c : ClassValue) (args : List Value) (steps : Nat) (m : Machine)
    (o : Instance) (after : Machine) : Prop where
  ofClass : o.ofClass = c
  fresh : m.store.fields[o.index]? = none
  unbound : ∀ f name other, m.store.local? f name = some (.instance other) → other.index ≠ o.index
  notInField : ∀ owner name other, m.store.field? owner name = some (.instance other) →
    other.index ≠ o.index
  notGiven : ∀ other, Value.instance other ∈ args → other.index ≠ o.index
  arity : args.length = match c.layers.findSome? fun layer => layer.methods["init"]? with
    | some method => method.declaration.params.length
    | none => 0
  plain : (c.layers.findSome? fun layer => layer.methods["init"]?) = none →
    after = m.mapStore fun s => (s.newInstance c).2
  initialized : ∀ method, (c.layers.findSome? fun layer => layer.methods["init"]?) = some method →
    ∃ k, steps = k + 2 ∧ Initializes method args o k (m.mapStore fun s => (s.newInstance c).2) after

section Construction

variable {happened : Moment → Prop}

open Run in
theorem initializes_of_invoke {method f : Closure} {args : List Value} {o : Instance} {k : Nat}
    {m bound after : Machine} {value : Value} (hmethod : method.declaration.Known)
    (hbind : bindMethod method o m = .ok f bound)
    (hinvoke : invoke k f args bound = .ok value after) :
    Initializes method args o k m after := by
  obtain ⟨hdeclaration, -, hback, hthis⟩ := bindMethod_binds hbind
  obtain ⟨k, frame, entered, flow, last, rfl, hframe, hbody, hresult⟩ := invoke_ok hinvoke
  have hparams : (f.declaration.params.map Name.text).Nodup := hdeclaration ▸ hmethod.params
  have hsize := Store.lt_size_of_local? hthis
  obtain ⟨hactivation, hcurrent, hkept⟩ := callFrame_activation hparams hsize hframe
  rw [resultOf_ok hresult, hcurrent, hback]
  rw [hdeclaration] at hbody
  exact .run hbind hdeclaration hframe hactivation ((hkept _ _ hsize).trans hthis) hbody

/-- A class of a known machine makes its instances so. -/
theorem Machine.Known.constructs {m after : Machine} (hm : m.Known happened) {c : ClassValue}
    (hc : c.Known) {args : List Value} (hargs : ∀ value ∈ args, value.Known happened m.store)
    {steps line : Nat} {value : Value}
    (h : Run.call steps (.class c) line args m = .ok value after) :
    ∃ o, value = .instance o ∧ Constructs c args steps m o after := by
  obtain ⟨k, rfl, harity, h⟩ := Run.call_class_ok h
  obtain ⟨j, rfl, rfl, hplain, hinit⟩ := Run.instantiate_ok h
  have hindex : (m.store.newInstance c).1.index = m.store.fields.size := rfl
  have hold : ∀ {other : Instance}, (Value.instance other).Known happened m.store →
      other.index ≠ (m.store.newInstance c).1.index := fun hother => Nat.ne_of_lt hother.1
  refine ⟨_, rfl, rfl, ?_, ?_, ?_, ?_, ?_, hplain, fun method hmethod => ?_⟩
  · rw [hindex, Array.getElem?_eq_none (Nat.le_refl _)]
  · exact fun f name other hother => hold (hm.bound f name _ hother)
  · exact fun owner name other hother => hold (hm.fields owner name _ hother)
  · exact fun other hother => hold (hargs _ hother)
  · rw [harity, ClassValue.arity]
    show (Option.map Closure.arity c.initializer?).getD 0 = match c.initializer? with
      | some method => method.declaration.params.length
      | none => 0
    cases c.initializer? <;> rfl
  · obtain ⟨f, bound, result, hbind, hinvoke⟩ := hinit method hmethod
    refine ⟨j, rfl, ?_⟩
    exact initializes_of_invoke (hc.findMethod? hmethod).1.1 hbind hinvoke

/-- The method name that a task looks up in a class. -/
def Task.sought : Task → Option String
  | .evaluate (.get _ name) => some name.text
  | .evaluate (.super _ _ name) => some name.text
  | .instantiate _ _ => some "init"
  | _ => none

/-- A method is bound where it was looked up in a class that is known. -/
theorem Moment.Known.sought {a : Moment} (hclosed : Closed happened) (ha : a.Known happened)
    (hh : happened a) {method : Closure} {o : Instance} {k : Nat} {m : Machine}
    (hstarts : a.Starts ⟨.bind method o, k, m⟩) :
    ∃ (c : ClassValue) (name : String), c.Known ∧ a.task.sought = some name
      ∧ c.findMethod? name = some method := by
  cases hstarts
  case method object name before hf hfield hobject =>
    have hobject := (Run.known_evaluate hclosed k object ha.machine ha.task
      (hclosed hh .getObject)).of_ok hobject
    exact ⟨o.ofClass, name.text, hobject.2.2.2, rfl, hf⟩
  case superMethod line id name inner c hf hhops hsuper hthis =>
    obtain ⟨_, -, hparent⟩ := Store.local?_of_getAt hsuper
    exact ⟨c, name.text, ha.machine.bound _ _ _ hparent, rfl, hf⟩
  case initializer c args before hmethod ho => exact ⟨c, "init", ha.task.1, rfl, hmethod⟩

/-- Only a method that is sought as `init` is an initializer. -/
theorem Moment.Known.isInitializer_iff {a : Moment} (hclosed : Closed happened)
    (ha : a.Known happened) (hh : happened a) {method : Closure} {o : Instance} {k : Nat}
    {m : Machine} (hstarts : a.Starts ⟨.bind method o, k, m⟩) {name : String}
    (hname : a.task.sought = some name) : method.isInitializer = true ↔ name = "init" := by
  obtain ⟨c, other, hc, hother, hfind⟩ := ha.sought hclosed hh hstarts
  cases hname.symm.trans hother
  obtain ⟨⟨-, hinit⟩, hdeclared⟩ := hc.findMethod? hfind
  rw [hinit, FunctionDecl.isInitializer, hdeclared, beq_iff_eq]
  rfl

/-- An initializer that is called by itself gives what it was bound to. -/
theorem Closure.Known.call_initializer (hclosed : Moment.Closed happened) {f : Closure} {m : Machine}
    (hm : m.Known happened) (hf : f.Known happened m.store) (hinit : f.isInitializer = true)
    {args : List Value} (hargs : ∀ value ∈ args, value.Known happened m.store)
    {steps identity line : Nat} {after : Machine} {value : Value}
    (hh : happened ⟨.call (.function identity f) line args, steps, m⟩)
    (h : Run.call steps (.function identity f) line args m = .ok value after) :
    m.store.local? f.frame "this" = some value := by
  obtain ⟨k, rfl, harity, hinvoke⟩ := Run.call_function_ok h
  have hstarted := hclosed hh (.function harity)
  obtain ⟨j, frame, entered, flow, last, rfl, hframe, hbody, hresult⟩ := Run.invoke_ok hinvoke
  have hentered := (Run.known_callFrame hm hf.1 hargs).of_ok hframe
  have hinside : Machine.Known happened { entered with current := frame } :=
    hentered.1.of_store_eq rfl
  have hlast := (Run.known_executeAll hclosed j f.declaration.body hinside hf.1.body
    (hclosed hstarted (.body hframe))).of_ok hbody
  obtain ⟨method, o, _, _, _, _, _, hthis⟩ := hf.2 hinit
  have hlt := Store.lt_size_of_local? hthis
  -- What the frame holds as `this` has not changed since the call began.
  have hkeeps : m.store.KeepsThis last.store := Store.KeepsThis.trans hentered.2.1 hlast.2.1
  have hvalue : last.store.local? f.frame "this" = some value :=
    Run.resultOf_initializer (m := { last with current := entered.current }) hinit hresult
  rw [← hkeeps.this f.frame hlt]
  exact hvalue

end Construction

namespace Session

open Run

theorem Happens.of_bind {outside : Outside} {history : List Request} {method : Closure} {o : Instance}
    {k : Nat} {m : Machine} (h : Happens outside history ⟨.bind method o, k, m⟩) :
    ∃ a, Happens outside history a ∧ a.Starts ⟨.bind method o, k, m⟩ := by
  obtain ⟨before, request, rest, root, hhistory, hbegins, hreaches⟩ := h
  cases hreaches with
  | refl => cases hbegins
  | tail hreaches hstarts =>
    exact ⟨_, ⟨before, request, rest, root, hhistory, hbegins, hreaches⟩, hstarts⟩

/-- **What calls of classes and initializers give.**  Wherever in a history a class is called and the
    call succeeds, it constructs a new instance of this class.  Wherever an initializer is called by
    itself and the call succeeds, it gives the instance that its frame holds as `this`, to which it
    was bound when `init` was looked up.  A method that is looked up is an initializer if and only if
    it is looked up as `init`. -/
theorem calls_construct (outside : Outside) (history : List Request) :
    (∀ {c : ClassValue} {line n : Nat} {args : List Value} {m after : Machine} {value : Value},
        Happens outside history ⟨.call (.class c) line args, n, m⟩ →
        call n (.class c) line args m = .ok value after →
        ∃ o, value = .instance o ∧ Constructs c args n m o after)
      ∧ (∀ {f : Closure} {identity line n : Nat} {args : List Value} {m after : Machine}
          {value : Value}, Happens outside history ⟨.call (.function identity f) line args, n, m⟩ →
        f.isInitializer = true →
        call n (.function identity f) line args m = .ok value after →
        ∃ (o : Instance) (a : Moment) (method : Closure) (k : Nat) (before bound : Machine),
          value = .instance o ∧ m.store.local? f.frame "this" = some (.instance o)
            ∧ Happens outside history a ∧ a.task.sought = some "init"
            ∧ a.Starts ⟨.bind method o, k, before⟩ ∧ bindMethod method o before = .ok f bound)
      ∧ ∀ {a : Moment} {name : String} {method f : Closure} {o : Instance} {k : Nat}
          {before bound : Machine}, Happens outside history a → a.task.sought = some name →
        a.Starts ⟨.bind method o, k, before⟩ → bindMethod method o before = .ok f bound →
        (f.isInitializer = true ↔ name = "init") := by
  have hclosed := closed_happens outside history
  refine ⟨fun hh h => ?_, fun hh hinit h => ?_, fun hh hname hstarts hbind => ?_⟩
  · exact hh.known.machine.constructs hh.known.task.1 hh.known.task.2 h
  · obtain ⟨⟨hf, hargs⟩, hm⟩ := hh.known
    obtain ⟨method, o, k, before, bound, hbinds, hbind, hthis⟩ := hf.2 hinit
    obtain ⟨a, ha, hstarts⟩ := hbinds.of_bind
    have hvalue := hf.call_initializer hclosed hm hinit hargs hh h
    rw [hthis] at hvalue
    cases hvalue
    obtain ⟨c, name, hc, hname, hfind⟩ := ha.known.sought hclosed ha hstarts
    have hsame := ha.known.isInitializer_iff hclosed ha hstarts hname
    rw [← (bindMethod_binds hbind).2.1] at hsame
    rw [hsame.mp hinit] at hname
    exact ⟨o, a, method, k, before, bound, rfl, hthis, ha, hname, hstarts, hbind⟩
  · rw [(bindMethod_binds hbind).2.1]
    exact hh.known.isInitializer_iff hclosed hh hstarts hname

/-- A class whose instances are initialized with one argument, which they keep in a field. -/
def keeping : String :=
  "class A { init(x) { this.x = x; } }"

/-- The class is called, and its initializer once more on the instance. -/
def keepingTwice : List Request :=
  [.run 20 keeping, .evaluate 20 "A(nil).init(true)"]

/-- The declaration of the initializer. -/
def keepingInit : FunctionDecl :=
  ⟨⟨"init", 1⟩, [⟨"x", 1⟩], [.expression (.set (.this 1 0) ⟨"x", 1⟩ (.variable ⟨"x", 1⟩ 1))]⟩

/-- The class that the declaration makes. -/
def keepingClass : ClassValue :=
  ⟨⟨0, "A", (∅ : Std.ExtTreeMap String Closure).insert "init" ⟨keepingInit, ⟨0⟩, true⟩⟩, []⟩

/-- The initializer is read off a new instance. -/
def readInit : Expr :=
  .get (.call (.variable ⟨"A", 1⟩ 2) 1 [.literal .nil]) ⟨"init", 1⟩

/-- The machine in which the second source begins. -/
def beforeKeeping : Machine :=
  ((start .unlimited).afterAll [.run 20 keeping]).machine.learn ∅

/-- The machine in which the class is called. -/
def keepingCalled : Machine :=
  left (Run.evaluate 17 (.variable ⟨"A", 1⟩ 2)) beforeKeeping

/-- The machine in which the initializer is called by itself. -/
def initCalled : Machine :=
  left (Run.evaluate 19 readInit) beforeKeeping

theorem happens_readInit : Happens .unlimited keepingTwice
    ⟨.evaluate (.call readInit 1 [.literal .true]), 20, beforeKeeping⟩ := by
  have hnext : ((start .unlimited).afterAll [.run 20 keeping]).nextId = 2 := by decide +kernel
  have hreads : ReadsExpression "A(nil).init(true)"
      ((start .unlimited).afterAll [.run 20 keeping]).nextId
      (.call readInit 1 [.literal .true]) 3 := by
    rw [hnext]
    exact ⟨by decide +kernel,
      ⟨(Cursor.start (tokens "A(nil).init(true)") 2).expression.2.2, by decide +kernel,
        by decide +kernel⟩,
      by decide +kernel⟩
  have hbegins := Begins.evaluate hreads 20
  rw [(Expr.bindings_unrecorded _).1] at hbegins
  exact ⟨[.run 20 keeping], _, [], _, rfl, hbegins, .refl⟩

theorem happens_keepingClass :
    Happens .unlimited keepingTwice ⟨.call (.class keepingClass) 1 [.nil], 17, keepingCalled⟩ := by
  have hclosed := closed_happens .unlimited keepingTwice
  have hclass : Run.evaluate 17 (.variable ⟨"A", 1⟩ 2) beforeKeeping
      = .ok (.class keepingClass) keepingCalled := eq_ok_left (by decide +kernel)
  exact hclosed (hclosed (hclosed happens_readInit .callee) .getObject) (.call hclass rfl)

theorem happens_initCalled :
    Happens .unlimited keepingTwice
      ⟨.call (.function 1 ⟨keepingInit, ⟨3⟩, true⟩) 1 [.bool true], 19, initCalled⟩ := by
  have hread : Run.evaluate 19 readInit beforeKeeping
      = .ok (.function 1 ⟨keepingInit, ⟨3⟩, true⟩) initCalled := eq_ok_left (by decide +kernel)
  exact closed_happens _ _ happens_readInit (.call hread rfl)

/-- An instance is made, and its initializer called by itself gives this instance. -/
theorem calls_construct_keeping :
    (Happens .unlimited keepingTwice ⟨.call (.class keepingClass) 1 [.nil], 17, keepingCalled⟩
      ∧ ∃ o after, call 17 (.class keepingClass) 1 [.nil] keepingCalled = .ok (.instance o) after
        ∧ Constructs keepingClass [.nil] 17 keepingCalled o after)
      ∧ Happens .unlimited keepingTwice
        ⟨.call (.function 1 ⟨keepingInit, ⟨3⟩, true⟩) 1 [.bool true], 19, initCalled⟩
      ∧ ∃ o after a method k before,
        call 19 (.function 1 ⟨keepingInit, ⟨3⟩, true⟩) 1 [.bool true] initCalled
          = .ok (.instance o) after
        ∧ initCalled.store.local? ⟨3⟩ "this" = some (.instance o)
        ∧ Happens .unlimited keepingTwice a ∧ a.task.sought = some "init"
        ∧ a.Starts ⟨.bind method o, k, before⟩
        ∧ ∃ bound, bindMethod method o before = .ok ⟨keepingInit, ⟨3⟩, true⟩ bound
          ∧ ((⟨keepingInit, ⟨3⟩, true⟩ : Closure).isInitializer = true ↔ "init" = "init") := by
  obtain ⟨hclasses, hinitializers, hsought⟩ := calls_construct .unlimited keepingTwice
  refine ⟨⟨happens_keepingClass, ?_⟩, happens_initCalled, ?_⟩
  · obtain ⟨value, after, hcall⟩ := exists_eq_ok
      (by decide +kernel : ((call 17 (.class keepingClass) 1 [.nil]).result? keepingCalled).isSome)
    obtain ⟨o, rfl, hconstructs⟩ := hclasses happens_keepingClass hcall
    exact ⟨o, after, hcall, hconstructs⟩
  · obtain ⟨value, after, hcall⟩ := exists_eq_ok
      (by decide +kernel : ((call 19 (.function 1 ⟨keepingInit, ⟨3⟩, true⟩) 1
        [.bool true]).result? initCalled).isSome)
    obtain ⟨o, a, method, k, before, bound, rfl, hthis, ha, hname, hstarts, hbind⟩ :=
      hinitializers happens_initCalled rfl hcall
    exact ⟨o, after, a, method, k, before, hcall, hthis, ha, hname, hstarts, bound, hbind,
      hsought ha hname hstarts hbind⟩

end Session

end Treewalk
