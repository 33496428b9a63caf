import Treewalk.Binding
import Treewalk.Fault
import Treewalk.Outside

/-!
# The machine that runs programs

**A machine is the store, the frame in which names are declared now, the hop counts of
references, the sink that takes the output, and the clock.**  Besides, it counts the identities it
has given out.  What a program does is a change of the machine with a result, or with the reason
why the run stops.
-/

namespace Treewalk

/-- The state of a running program (`Interpreter`). -/
structure Machine where
  store : Store
  current : FrameId
  hops : HopTable
  sink : Sink
  identities : Nat
  clock : Clock

/-- A change of the machine with a result, unless the run stops. -/
abbrev Run := EStateM Halt Machine

namespace Machine

/-- A machine before its first program: one frame, which binds the native functions
    (`Interpreter::with_output`). -/
def initial (outside : Outside) : Machine :=
  { store := Store.initial.define Store.globals Native.clock.name (.native .clock)
    current := Store.globals
    hops := ∅
    sink := outside.sink
    identities := 0
    clock := outside.clock }

/-- Changes the store. -/
@[inline]
def mapStore (m : Machine) (change : Store → Store) : Machine :=
  match m with
  | ⟨store, current, hops, sink, identities, clock⟩ =>
    ⟨change store, current, hops, sink, identities, clock⟩

/-- Makes something new in the store. -/
@[inline]
def allocate {α : Type} (m : Machine) (make : Store → α × Store) : α × Machine :=
  match m with
  | ⟨store, current, hops, sink, identities, clock⟩ =>
    match make store with
    | (result, store) => (result, ⟨store, current, hops, sink, identities, clock⟩)

/-- Changes the sink. -/
@[inline]
def mapSink (m : Machine) (change : Sink → Sink) : Machine :=
  match m with
  | ⟨store, current, hops, sink, identities, clock⟩ =>
    ⟨store, current, hops, change sink, identities, clock⟩

/-- Adds hop counts; for a reference that has one already, the new one counts
    (`Interpreter::resolve`). -/
def learn (m : Machine) (table : HopTable) : Machine :=
  { m with hops := m.hops ∪ table }

/-- Drops the hop counts of references (`Interpreter::forget`). -/
def forget (m : Machine) (ids : List Nat) : Machine :=
  { m with hops := ids.foldl (fun hops id => hops.erase id) m.hops }

end Machine

namespace Run

/-! ### Stopping -/

/-- Stops with a fault. -/
def fault {α : Type} (site : Name) (cause : FaultCause) : Run α :=
  throw (.failure (.fault ⟨site, cause⟩))

/-- Goes on with a result, or stops with a fault. -/
def orFault {α : Type} (site : Name) : Except FaultCause α → Run α
  | .ok result => pure result
  | .error cause => fault site cause

/-! ### Frames and names -/

/-- The frame in which names are declared now. -/
def currentFrame : Run FrameId := fun m =>
  .ok m.current m

/-- Binds a name in a frame (`Environment::define`). -/
def define (f : FrameId) (name : String) (value : Value) : Run PUnit := fun m =>
  .ok ⟨⟩ (m.mapStore fun store => store.define f name value)

/-- A new frame inside another (`child_of`). -/
def child (f : FrameId) : Run FrameId := fun m =>
  match m.allocate fun store => store.child f with
  | (frame, m) => .ok frame m

/-- Runs something in another frame and comes back, however it ends (`execute_block`). -/
@[inline]
def within {α : Type} (f : FrameId) (body : Run α) : Run α := fun m =>
  let before := m.current
  match body { m with current := f } with
  | .ok result m => .ok result { m with current := before }
  | .error halt m => .error halt { m with current := before }

/-- The value of a global variable (`Environment::get` on the global frame). -/
def readGlobal (name : Name) : Run Value := fun m =>
  match m.store.get? Store.globals name.text with
  | some value => .ok value m
  | none => .error (.failure (.fault ⟨name, .undefinedVariable name.text⟩)) m

/-- Changes a variable that is found by walking outward from a frame (`Environment::assign`). -/
def assignFrom (f : FrameId) (name : Name) (value : Value) : Run PUnit := fun m =>
  match m.store.owner? f name.text with
  | some owner => .ok ⟨⟩ (m.mapStore fun store => store.define owner name.text value)
  | none => .error (.failure (.fault ⟨name, .undefinedVariable name.text⟩)) m

/-- The frame is looked for first, so that the store is changed in place; it comes to the same
    as assigning in the store. -/
theorem assignFrom_eq (f : FrameId) (name : Name) (value : Value) (m : Machine) :
    assignFrom f name value m =
      match m.store.assign? f name.text value with
      | some store => .ok ⟨⟩ { m with store }
      | none => .error (.failure (.fault ⟨name, .undefinedVariable name.text⟩)) m := by
  unfold assignFrom Store.assign?
  rcases m.store.owner? f name.text with _ | owner <;> rfl

theorem assignFrom_of_owner {f owner : FrameId} {name : Name} {m : Machine}
    (h : m.store.owner? f name.text = some owner) (value : Value) :
    assignFrom f name value m = define owner name.text value m := by
  unfold assignFrom
  rw [h]
  rfl

/-- The value of a name a number of frames outward (`get_at`). -/
def readAt (hops : Nat) (name : String) : Run Value := fun m =>
  match m.store.getAt m.current hops name with
  | .ok value => .ok value m
  | .error breach => .error (.breach breach) m

/-- Binds a name a number of frames outward (`assign_at`). -/
def assignAt (hops : Nat) (name : String) (value : Value) : Run PUnit := fun m =>
  match m.store.ancestor? m.current hops with
  | some frame => .ok ⟨⟩ (m.mapStore fun store => store.define frame name value)
  | none => .error (.breach .tooFewFrames) m

theorem assignAt_of_ancestor {hops : Nat} {owner : FrameId} {name : String} {m : Machine}
    (h : m.store.ancestor? m.current hops = some owner) (value : Value) :
    assignAt hops name value m = define owner name value m := by
  unfold assignAt
  rw [h]
  rfl

/-- The hop count of a reference. -/
def hopsOf (id : Nat) : Run (Option Nat) := fun m =>
  .ok m.hops[id]? m

/-- Reads a reference: by its hop count if it has one, as a global variable otherwise
    (`lookup_variable`). -/
def read (name : Name) (id : Nat) : Run Value := do
  match ← hopsOf id with
  | some hops => readAt hops name.text
  | none => readGlobal name

/-- Assigns to a reference, as `evaluate` does at an assignment. -/
def assign (name : Name) (id : Nat) (value : Value) : Run PUnit := do
  match ← hopsOf id with
  | some hops => assignAt hops name.text value
  | none => assignFrom Store.globals name value

/-! ### Functions, classes and instances -/

/-- An identity that nothing has had before. -/
def freshIdentity : Run Nat := fun m =>
  .ok m.identities { m with identities := m.identities + 1 }

/-- A function as a value of its own. -/
def functionValue (f : Closure) : Run Value := do
  return .function (← freshIdentity) f

/-- A method with a frame around it that binds `this` (`Function::bind`). -/
def bindMethod (method : Closure) (o : Instance) : Run Closure := do
  let frame ← child method.frame
  define frame "this" (.instance o)
  return { method with frame }

/-- A new instance (`Instance::new`). -/
def newInstance (c : ClassValue) : Run Instance := fun m =>
  match m.allocate fun store => store.newInstance c with
  | (o, m) => .ok o m

/-- The field of an instance, if it has one. -/
def field? (o : Instance) (name : String) : Run (Option Value) := fun m =>
  .ok (m.store.field? o name) m

/-- Sets a field of an instance (`Instance::set`). -/
def setField (o : Instance) (name : String) (value : Value) : Run PUnit := fun m =>
  .ok ⟨⟩ (m.mapStore fun store => store.setField o name value)

/-- The method of a class, bound to an instance (`find_method` and `Function::bind`). -/
def methodOf (c : ClassValue) (o : Instance) (name : Name) : Run Value := do
  match c.findMethod? name.text with
  | some method => functionValue (← bindMethod method o)
  | none => fault name (.undefinedProperty name.text)

/-- A property of an instance: a field, or else a method of its class bound to it
    (`Instance::get`). -/
def property (o : Instance) (name : Name) : Run Value := do
  match ← field? o name.text with
  | some value => return value
  | none => methodOf o.ofClass o name

/-- The method that `super` means: it is looked for in the class that the surrounding class was
    derived from, and bound to what `this` means one frame further inside (`evaluate_super`). -/
def superMethod (line : Nat) (id : Nat) (method : Name) : Run Value := do
  match ← hopsOf id with
  | none => fault ⟨"super", line⟩ .superOutsideClass
  | some hops =>
    match ← readAt hops "super" with
    | .class superclass =>
      match hops with
      | 0 => throw (.breach .tooFewFrames)
      | inner + 1 =>
        match ← readAt inner "this" with
        | .instance o => methodOf superclass o method
        | _ => fault ⟨"super", line⟩ .superOutsideMethod
    | _ => fault ⟨"super", line⟩ .superclassNotClass

/-- The methods of a class as functions declared in a frame.  Of two methods with one name the
    later counts. -/
def methodTable (frame : FrameId) (methods : List FunctionDecl) :
    Std.ExtTreeMap String Closure :=
  methods.foldl
    (fun table declaration =>
      table.insert declaration.name.text ⟨declaration, frame, declaration.isInitializer⟩) ∅

/-- A new class, whose superclass is `parent` if it has one (`Class::new`). -/
def newClass (name : String) (parent : Option ClassValue)
    (methods : Std.ExtTreeMap String Closure) : Run ClassValue := do
  let own := ⟨← freshIdentity, name, methods⟩
  match parent with
  | some parent => return ⟨own, parent.layers⟩
  | none => return ⟨own, []⟩

/-! ### The outside -/

/-- Writes to the sink, as far as it has room. -/
def write (text : String) : Run PUnit := fun m =>
  let bytes := text.toUTF8
  let fits := m.sink.hasRoom bytes.size
  let m := m.mapSink fun sink => sink.write bytes
  if fits then .ok ⟨⟩ m else .error (.failure (.sink .full)) m

/-- Flushes the sink. -/
def flush : Run PUnit := fun m =>
  if m.sink.flushFails then .error (.failure (.sink .flushFailed)) m else .ok ⟨⟩ m

/-- Reads the clock, in seconds (`clock`). -/
def clock : Run Value := fun m =>
  .ok (.number m.clock.seconds) { m with clock := m.clock.next }

end Run

end Treewalk
