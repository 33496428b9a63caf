import Treewalk.Proofs.Evaluation.Acting
import Treewalk.Proofs.Sequencing

/-!
# Running into a full sink

**With a limit on its output a run does what it does without one, up to the first print that goes
beyond the limit, and there it stops.**  Only prints change the sink, and nothing but prints and the
final flush depends on it.  All other parts of a run are the same for every sink, and every part
that contains others passes on the failure of the first of them that fails.
-/

namespace Treewalk

/-! ### Limits -/

/-- The sink with another limit. -/
def Sink.withLimit (n : Nat) (s : Sink) : Sink :=
  { s with limit := some n }

/-- The machine with another limit for its sink. -/
def Machine.withLimit (n : Nat) (m : Machine) : Machine :=
  { m with sink := m.sink.withLimit n }

/-- The same in a machine with another limit. -/
def Act.withLimit (n : Nat) : Act → Act
  | .begin statement m => .begin statement (m.withLimit n)
  | .print value m => .print value (m.withLimit n)

/-- The bytes that printing a value writes. -/
def Value.line (value : Value) : ByteArray :=
  (value.text ++ "\n").toUTF8

/-- Every line has at least its end. -/
theorem Value.size_line_ne_zero (value : Value) : value.line.size ≠ 0 := by
  have h : value.line = value.text.toUTF8 ++ "\n".toUTF8 := by
    simp [line]
  rw [h, ByteArray.size_append]
  exact Nat.ne_of_gt (Nat.add_pos_right _ (by decide))

/-- No more than all bytes can be taken. -/
theorem extract_of_size_le {bytes : ByteArray} {n : Nat} (h : bytes.size ≤ n) :
    bytes.extract 0 n = bytes := by
  rw [← Nat.max_eq_left h, ByteArray.extract_zero_max_size]

/-- The first bytes do not depend on what comes behind them. -/
theorem extract_append_of_le {bytes : ByteArray} {n : Nat} (h : n ≤ bytes.size) (more : ByteArray) :
    (bytes ++ more).extract 0 n = bytes.extract 0 n := by
  rw [ByteArray.extract_append, Nat.zero_sub, Nat.sub_eq_zero_of_le h, ByteArray.extract_same,
    ByteArray.append_empty]

namespace Sink

variable {n : Nat} {s : Sink} {bytes : ByteArray}

theorem hasRoom_withLimit_iff (h : bytes.size ≠ 0) :
    (s.withLimit n).hasRoom bytes.size = true ↔ (s.written ++ bytes).size ≤ n := by
  show (decide (bytes.size = 0) || decide (s.written.size + bytes.size ≤ n)) = true ↔ _
  rw [ByteArray.size_append, Bool.or_eq_true, decide_eq_true_iff, decide_eq_true_iff,
    or_iff_right h]

theorem write_of_unlimited (h : s.limit = none) :
    s.write bytes = { s with written := s.written ++ bytes } := by
  rcases s with ⟨written, limit, flushFails⟩
  cases h
  rfl

/-- A write that fits is made as if there were no limit. -/
theorem write_withLimit (hlimit : s.limit = none) (h : (s.written ++ bytes).size ≤ n) :
    (s.withLimit n).write bytes = (s.write bytes).withLimit n := by
  rw [ByteArray.size_append] at h
  have htaken : bytes.extract 0 (n - s.written.size) = bytes := extract_of_size_le (by omega)
  rw [write_of_unlimited hlimit]
  simp only [write, taken, withLimit, htaken]

/-- However large a write is, the sink holds the first bytes of all that it was to take. -/
theorem written_write_withLimit (h : s.written.size ≤ n) :
    ((s.withLimit n).write bytes).written = (s.written ++ bytes).extract 0 n := by
  rw [ByteArray.extract_append, extract_of_size_le h, Nat.zero_sub]
  rfl

end Sink

namespace Run

variable {α β : Type} {x : Run α} {f : α → Run β}

/-- The machine that a run leaves, however it ends. -/
def left (x : Run α) (m : Machine) : Machine :=
  match x m with
  | .ok _ after | .error _ after => after

/-- The same end in another machine. -/
def inMachine (change : Machine → Machine) :
    EStateM.Result Halt Machine α → EStateM.Result Halt Machine α
  | .ok a after => .ok a (change after)
  | .error halt after => .error halt (change after)

theorem left_of_ok {m after : Machine} {a : α} (h : x m = .ok a after) : left x m = after := by
  unfold left
  rw [h]

theorem left_of_error {m after : Machine} {halt : Halt} (h : x m = .error halt after) :
    left x m = after := by
  unfold left
  rw [h]

theorem left_bind_of_ok {m middle : Machine} {a : α} (h : x m = .ok a middle) :
    left (x >>= f) m = left (f a) middle := by
  unfold left
  rw [bind_of_ok h]

theorem left_bind_of_error {m middle : Machine} {halt : Halt} (h : x m = .error halt middle) :
    left (x >>= f) m = middle :=
  left_of_error (bind_of_error h)

/-! ### Parts that do not print -/

/-- The run takes the same course with every sink, and leaves it and the frame as they are. -/
structure Quiet (x : Run α) : Prop where
  current : ∀ m, (left x m).current = m.current
  sink : ∀ m (change : Sink → Sink), x { m with sink := change m.sink }
    = inMachine (fun after => { after with sink := change after.sink }) (x m)

theorem quiet_pure (a : α) : Quiet (pure a : Run α) :=
  ⟨fun _ => rfl, fun _ _ => rfl⟩

theorem quiet_throw (halt : Halt) : Quiet (throw halt : Run α) :=
  ⟨fun _ => rfl, fun _ _ => rfl⟩

theorem Quiet.bind (hx : Quiet x) (hf : ∀ a, Quiet (f a)) : Quiet (x >>= f) := by
  constructor
  · intro m
    have hcurrent := hx.current m
    rcases h : x m with ⟨a, middle⟩ | ⟨halt, middle⟩
    · rw [left_of_ok h] at hcurrent
      rw [left_bind_of_ok h, ← hcurrent]
      exact (hf a).current middle
    · rw [left_of_error h] at hcurrent
      rw [left_bind_of_error h, hcurrent]
  · intro m change
    have hsink := hx.sink m change
    rcases h : x m with ⟨a, middle⟩ | ⟨halt, middle⟩ <;> rw [h] at hsink
    · rw [bind_of_ok hsink, bind_of_ok h]
      exact (hf a).sink middle change
    · rw [bind_of_error hsink, bind_of_error h]
      rfl

theorem Quiet.within (hx : Quiet x) (frame : FrameId) : Quiet (within frame x) := by
  constructor
  · intro m
    unfold left Run.within
    rcases x { m with current := frame } with _ | _ <;> rfl
  · intro m change
    have hsink := hx.sink { m with current := frame } change
    unfold Run.within
    dsimp only at hsink ⊢
    rw [hsink]
    rcases x { m with current := frame } with _ | _ <;> rfl

theorem quiet_fault (site : Name) (cause : FaultCause) : Quiet (fault site cause : Run α) :=
  quiet_throw _

theorem quiet_orFault (site : Name) (result : Except FaultCause α) :
    Quiet (orFault site result) := by
  rcases result with cause | a
  · exact quiet_fault site cause
  · exact quiet_pure a

theorem quiet_currentFrame : Quiet currentFrame :=
  ⟨fun _ => rfl, fun _ _ => rfl⟩

theorem quiet_define (frame : FrameId) (name : String) (value : Value) :
    Quiet (define frame name value) :=
  ⟨fun _ => rfl, fun _ _ => rfl⟩

theorem quiet_child (frame : FrameId) : Quiet (child frame) :=
  ⟨fun _ => rfl, fun _ _ => rfl⟩

theorem quiet_readGlobal (name : Name) : Quiet (readGlobal name) := by
  constructor
  · intro m
    unfold left readGlobal
    rcases m.store.get? Store.globals name.text with _ | value <;> rfl
  · intro m change
    unfold readGlobal
    dsimp only
    rcases m.store.get? Store.globals name.text with _ | value <;> rfl

theorem quiet_assignFrom (frame : FrameId) (name : Name) (value : Value) :
    Quiet (assignFrom frame name value) := by
  constructor
  · intro m
    unfold left assignFrom
    rcases m.store.owner? frame name.text with _ | owner <;> rfl
  · intro m change
    unfold assignFrom
    dsimp only
    rcases m.store.owner? frame name.text with _ | owner <;> rfl

theorem quiet_readAt (hops : Nat) (name : String) : Quiet (readAt hops name) := by
  constructor
  · intro m
    unfold left readAt
    rcases m.store.getAt m.current hops name with breach | value <;> rfl
  · intro m change
    unfold readAt
    dsimp only
    rcases m.store.getAt m.current hops name with breach | value <;> rfl

theorem quiet_assignAt (hops : Nat) (name : String) (value : Value) :
    Quiet (assignAt hops name value) := by
  constructor
  · intro m
    unfold left assignAt
    rcases m.store.ancestor? m.current hops with _ | frame <;> rfl
  · intro m change
    unfold assignAt
    dsimp only
    rcases m.store.ancestor? m.current hops with _ | frame <;> rfl

theorem quiet_hopsOf (id : Nat) : Quiet (hopsOf id) :=
  ⟨fun _ => rfl, fun _ _ => rfl⟩

theorem quiet_read (name : Name) (id : Nat) : Quiet (read name id) := by
  refine (quiet_hopsOf id).bind fun hops? => ?_
  rcases hops? with _ | hops
  · exact quiet_readGlobal name
  · exact quiet_readAt hops name.text

theorem quiet_assign (name : Name) (id : Nat) (value : Value) : Quiet (assign name id value) := by
  refine (quiet_hopsOf id).bind fun hops? => ?_
  rcases hops? with _ | hops
  · exact quiet_assignFrom Store.globals name value
  · exact quiet_assignAt hops name.text value

theorem quiet_freshIdentity : Quiet freshIdentity :=
  ⟨fun _ => rfl, fun _ _ => rfl⟩

theorem quiet_functionValue (f : Closure) : Quiet (functionValue f) :=
  quiet_freshIdentity.bind fun _ => quiet_pure _

theorem quiet_bindMethod (method : Closure) (o : Instance) : Quiet (bindMethod method o) :=
  (quiet_child method.frame).bind fun frame =>
    (quiet_define frame "this" (.instance o)).bind fun _ => quiet_pure _

theorem quiet_newInstance (c : ClassValue) : Quiet (newInstance c) :=
  ⟨fun _ => rfl, fun _ _ => rfl⟩

theorem quiet_field? (o : Instance) (name : String) : Quiet (field? o name) :=
  ⟨fun _ => rfl, fun _ _ => rfl⟩

theorem quiet_setField (o : Instance) (name : String) (value : Value) :
    Quiet (setField o name value) :=
  ⟨fun _ => rfl, fun _ _ => rfl⟩

theorem quiet_methodOf (c : ClassValue) (o : Instance) (name : Name) :
    Quiet (methodOf c o name) := by
  unfold methodOf
  rcases c.findMethod? name.text with _ | method
  · exact quiet_fault _ _
  · exact (quiet_bindMethod method o).bind quiet_functionValue

theorem quiet_property (o : Instance) (name : Name) : Quiet (property o name) := by
  refine (quiet_field? o name.text).bind fun value? => ?_
  rcases value? with _ | value
  · exact quiet_methodOf o.ofClass o name
  · exact quiet_pure value

theorem quiet_superMethod (line id : Nat) (method : Name) : Quiet (superMethod line id method) := by
  refine (quiet_hopsOf id).bind fun hops? => ?_
  rcases hops? with _ | hops
  · exact quiet_fault _ _
  refine (quiet_readAt hops "super").bind fun value => ?_
  cases value with
  | «class» superclass =>
    rcases hops with _ | inner
    · exact quiet_throw _
    · refine (quiet_readAt inner "this").bind fun value => ?_
      cases value with
      | «instance» o => exact quiet_methodOf superclass o method
      | _ => exact quiet_fault _ _
  | _ => exact quiet_fault _ _

theorem quiet_newClass (name : String) (parent : Option ClassValue)
    (methods : Std.ExtTreeMap String Closure) : Quiet (newClass name parent methods) := by
  refine quiet_freshIdentity.bind fun identity => ?_
  rcases parent with _ | parent
  · exact quiet_pure _
  · exact quiet_pure _

theorem quiet_clock : Quiet clock :=
  ⟨fun _ => rfl, fun _ _ => rfl⟩

theorem quiet_bindParams (frame : FrameId) : ∀ (params : List Name) (args : List Value),
    Quiet (bindParams frame params args)
  | [], _ => quiet_pure _
  | _ :: _, [] => quiet_pure _
  | param :: params, argument :: args =>
    (quiet_define frame param.text argument).bind fun _ => quiet_bindParams frame params args

theorem quiet_superclassOf (superclass : Option Reference) : Quiet (superclassOf superclass) := by
  rcases superclass with _ | superclass
  · exact quiet_pure _
  · refine (quiet_read superclass.name superclass.id).bind fun value => ?_
    cases value with
    | «class» parent => exact quiet_pure _
    | _ => exact quiet_fault _ _

theorem quiet_methodFrame (frame : FrameId) (parent : Option ClassValue) :
    Quiet (methodFrame frame parent) := by
  rcases parent with _ | parent
  · exact quiet_pure _
  · exact (quiet_child frame).bind fun inner =>
      (quiet_define inner "super" (.class parent)).bind fun _ => quiet_pure _

theorem quiet_declareClass (name : Name) (superclass : Option Reference)
    (methods : List FunctionDecl) : Quiet (declareClass name superclass methods) := by
  refine (quiet_superclassOf superclass).bind fun parent => ?_
  refine quiet_currentFrame.bind fun frame => ?_
  refine (quiet_define frame name.text .nil).bind fun _ => ?_
  refine (quiet_methodFrame frame parent).bind fun inner => ?_
  exact (quiet_newClass name.text parent _).bind fun value =>
    quiet_assignFrom frame name (.class value)

theorem quiet_declareFunction (declaration : FunctionDecl) : Quiet (declareFunction declaration) :=
  quiet_currentFrame.bind fun frame =>
    (quiet_functionValue ⟨declaration, frame, false⟩).bind fun value =>
      quiet_define frame declaration.name.text value

theorem quiet_blockFrame : Quiet blockFrame :=
  quiet_currentFrame.bind quiet_child

theorem quiet_callFrame (f : Closure) (args : List Value) : Quiet (callFrame f args) :=
  (quiet_child f.frame).bind fun frame =>
    (quiet_bindParams frame f.declaration.params args).bind fun _ => quiet_pure frame

/-! ### Parts that print -/

/-- The print that does not fit any more, in a row of acts. -/
structure Overflow where
  before : List Act
  value : Value
  moment : Machine
  later : List Act

namespace Overflow

/-- All acts of the row. -/
def acts (o : Overflow) : List Act :=
  o.before ++ .print o.value o.moment :: o.later

/-- The acts up to the print that does not fit. -/
def acted (o : Overflow) : List Act :=
  o.before ++ [.print o.value o.moment]

/-- All that is written with this print. -/
def written (o : Overflow) : ByteArray :=
  o.moment.sink.written ++ o.value.line

/-- The machine in which a run with a limit stops, back in the frame that it came from. -/
def stopped (o : Overflow) (n : Nat) (frame : FrameId) : Machine :=
  { o.moment with
    current := frame
    sink := (o.moment.sink.withLimit n).write o.value.line }

end Overflow

/-- The print is the first that goes beyond the limit, and the run with the limit stops at it. -/
structure Overflows (n : Nat) (x : Run α) (acts : Machine → List Act) (m : Machine) (o : Overflow) :
    Prop where
  acts_eq : acts m = o.acts
  fits : o.moment.sink.written.size ≤ n
  exceeds : n < o.written.size
  left_eq : ∃ more, (left x m).sink.written = o.written ++ more
  stops : x (m.withLimit n) = .error (.failure (.sink .full)) (o.stopped n m.current)
  acted : acts (m.withLimit n) = o.acted.map (Act.withLimit n)

/-- Either the run never goes beyond the limit, and then the limit changes nothing, or there is a
    print that it stops at. -/
inductive Heeds (n : Nat) (x : Run α) (acts : Machine → List Act) (m : Machine) : Prop
  | within (hsize : (left x m).sink.written.size ≤ n)
      (hresult : x (m.withLimit n) = inMachine (Machine.withLimit n) (x m))
      (hacts : acts (m.withLimit n) = (acts m).map (Act.withLimit n))
  | beyond (o : Overflow) (h : Overflows n x acts m o)

/-- The run, which does these acts, adds to the sink and comes back to its frame; and it heeds a
    limit wherever it still fits. -/
structure Fills (n : Nat) (x : Run α) (acts : Machine → List Act) : Prop where
  current : ∀ m, (left x m).current = m.current
  appends : ∀ m, ∃ more, (left x m).sink = { m.sink with written := m.sink.written ++ more }
  heeds : ∀ m, m.sink.limit = none → m.sink.written.size ≤ n → Heeds n x acts m

section Filling

variable {n : Nat} {acts : Machine → List Act} {rest : α → Machine → List Act}

theorem Quiet.left_sink (hx : Quiet x) (m : Machine) : (left x m).sink = m.sink := by
  have h : x m = inMachine (fun after => { after with sink := m.sink }) (x m) :=
    hx.sink m fun _ => m.sink
  unfold left
  rw [h]
  rcases x m with ⟨a, after⟩ | ⟨halt, after⟩ <;> rfl

theorem Quiet.fills (hx : Quiet x) : Fills n x fun _ => [] := by
  constructor
  · exact hx.current
  · intro m
    exact ⟨.empty, by rw [hx.left_sink, ByteArray.append_empty]⟩
  · intro m hlimit hsize
    apply Heeds.within
    · rw [hx.left_sink]
      exact hsize
    · exact hx.sink m (Sink.withLimit n)
    · rfl

/-- What comes behind a print that does not fit is not reached with the limit. -/
theorem Overflows.bind {m : Machine} {o : Overflow} (h : Overflows n x acts m o)
    (hf : ∀ a, Fills n (f a) (rest a)) :
    Overflows n (x >>= f) (fun m => acts m ++ followedBy x rest m) m
      { o with later := o.later ++ followedBy x rest m } where
  acts_eq := by
    rw [h.acts_eq, Overflow.acts, Overflow.acts, List.append_assoc, List.cons_append]
  fits := h.fits
  exceeds := h.exceeds
  left_eq := by
    obtain ⟨more, hmore⟩ := h.left_eq
    rcases hx : x m with ⟨a, middle⟩ | ⟨halt, middle⟩
    · obtain ⟨last, hlast⟩ := (hf a).appends middle
      rw [left_of_ok hx] at hmore
      refine ⟨more ++ last, ?_⟩
      rw [left_bind_of_ok hx, hlast, hmore, ByteArray.append_assoc]
      rfl
    · rw [left_of_error hx] at hmore
      exact ⟨more, by rw [left_bind_of_error hx, hmore]; rfl⟩
  stops := bind_of_error h.stops
  acted := by
    rw [h.acted, followedBy_of_error h.stops, List.append_nil]
    rfl

/-- A print that does not fit is the first of the whole if the part before it keeps within. -/
theorem Overflows.after {m middle : Machine} {a : α} {o : Overflow} (hx : Fills n x acts)
    (hok : x m = .ok a middle) (hresult : x (m.withLimit n) = .ok a (middle.withLimit n))
    (hacts : acts (m.withLimit n) = (acts m).map (Act.withLimit n))
    (h : Overflows n (f a) (rest a) middle o) :
    Overflows n (x >>= f) (fun m => acts m ++ followedBy x rest m) m
      { o with before := acts m ++ o.before } where
  acts_eq := by
    rw [followedBy_of_ok hok, h.acts_eq, Overflow.acts, Overflow.acts, List.append_assoc]
  fits := h.fits
  exceeds := h.exceeds
  left_eq := by
    rw [left_bind_of_ok hok]
    exact h.left_eq
  stops := by
    have hcurrent := hx.current m
    rw [left_of_ok hok] at hcurrent
    rw [bind_of_ok hresult, h.stops, hcurrent]
    rfl
  acted := by
    rw [hacts, followedBy_of_ok hresult, h.acted, ← List.map_append, Overflow.acted,
      ← List.append_assoc]
    rfl

theorem Heeds.bind {m : Machine} (hlimit : m.sink.limit = none) (hx : Fills n x acts)
    (hf : ∀ a, Fills n (f a) (rest a)) (h : Heeds n x acts m) :
    Heeds n (x >>= f) (fun m => acts m ++ followedBy x rest m) m := by
  cases h with
  | beyond o h => exact .beyond _ (h.bind hf)
  | within hsize hresult hacts =>
    obtain ⟨more, hmore⟩ := hx.appends m
    rcases hm : x m with ⟨a, middle⟩ | ⟨halt, middle⟩
    · rw [left_of_ok hm] at hsize hmore
      rw [hm] at hresult
      have hunlimited : middle.sink.limit = none := by
        rw [hmore]
        exact hlimit
      cases (hf a).heeds middle hunlimited hsize with
      | beyond o h => exact .beyond _ (h.after hx hm hresult hacts)
      | within hsize' hresult' hacts' =>
        apply Heeds.within
        · rw [left_bind_of_ok hm]
          exact hsize'
        · rw [bind_of_ok hresult, bind_of_ok hm, hresult']
        · rw [followedBy_of_ok hresult, followedBy_of_ok hm, hacts, hacts', List.map_append]
    · rw [left_of_error hm] at hsize
      rw [hm] at hresult
      apply Heeds.within
      · rw [left_bind_of_error hm]
        exact hsize
      · rw [bind_of_error hresult, bind_of_error hm]
        rfl
      · rw [followedBy_of_error hresult, followedBy_of_error hm, hacts, List.map_append]
        rfl

theorem Fills.bind (hx : Fills n x acts) (hf : ∀ a, Fills n (f a) (rest a)) :
    Fills n (x >>= f) fun m => acts m ++ followedBy x rest m where
  current m := by
    have hcurrent := hx.current m
    rcases h : x m with ⟨a, middle⟩ | ⟨halt, middle⟩
    · rw [left_of_ok h] at hcurrent
      rw [left_bind_of_ok h, ← hcurrent]
      exact (hf a).current middle
    · rw [left_of_error h] at hcurrent
      rw [left_bind_of_error h, hcurrent]
  appends m := by
    obtain ⟨first, hfirst⟩ := hx.appends m
    rcases h : x m with ⟨a, middle⟩ | ⟨halt, middle⟩
    · rw [left_of_ok h] at hfirst
      obtain ⟨second, hsecond⟩ := (hf a).appends middle
      exact ⟨first ++ second, by
        rw [left_bind_of_ok h, hsecond, hfirst, ByteArray.append_assoc]⟩
    · rw [left_of_error h] at hfirst
      exact ⟨first, by rw [left_bind_of_error h, hfirst]⟩
  heeds m hlimit hsize := (hx.heeds m hlimit hsize).bind hlimit hx hf

/-- Acts may be listed in another way. -/
theorem Fills.of_acts {acts' : Machine → List Act} (h : Fills n x acts')
    (heq : ∀ m, acts m = acts' m) : Fills n x acts := by
  rw [funext heq]
  exact h

theorem Fills.bind_quiet (hx : Fills n x acts) (hf : ∀ a, Quiet (f a)) : Fills n (x >>= f) acts :=
  (hx.bind fun a => (hf a).fills).of_acts fun m => by rw [followedBy_nothing, List.append_nil]

theorem Quiet.bind_fills (hx : Quiet x) (hf : ∀ a, Fills n (f a) (rest a)) :
    Fills n (x >>= f) (followedBy x rest) :=
  hx.fills.bind hf

theorem within_eq (frame : FrameId) (x : Run α) (m : Machine) :
    Run.within frame x m
      = inMachine (fun after => { after with current := m.current })
        (x { m with current := frame }) := by
  unfold Run.within
  rcases x { m with current := frame } with ⟨a, after⟩ | ⟨halt, after⟩ <;> rfl

theorem left_within (frame : FrameId) (x : Run α) (m : Machine) :
    left (Run.within frame x) m
      = { left x { m with current := frame } with current := m.current } := by
  unfold left
  rw [within_eq]
  rcases x { m with current := frame } with ⟨a, after⟩ | ⟨halt, after⟩ <;> rfl

theorem Fills.within (hx : Fills n x acts) (frame : FrameId) :
    Fills n (Run.within frame x) fun m => acts { m with current := frame } where
  current m := by rw [left_within]
  appends m := by
    rw [left_within]
    exact hx.appends { m with current := frame }
  heeds m hlimit hsize := by
    cases hx.heeds { m with current := frame } hlimit hsize with
    | within hsize' hresult hacts =>
      have hwithin : x { m.withLimit n with current := frame }
          = inMachine (Machine.withLimit n) (x { m with current := frame }) := hresult
      apply Heeds.within
      · rw [left_within]
        exact hsize'
      · rw [within_eq, within_eq, hwithin]
        rcases x { m with current := frame } with ⟨a, after⟩ | ⟨halt, after⟩ <;> rfl
      · exact hacts
    | beyond o h =>
      have hstops : x { m.withLimit n with current := frame }
          = .error (.failure (.sink .full)) (o.stopped n frame) := h.stops
      refine .beyond o ⟨h.acts_eq, h.fits, h.exceeds, ?_, ?_, h.acted⟩
      · rw [left_within]
        exact h.left_eq
      · rw [within_eq, hstops]
        rfl

theorem Fills.begin (hx : Fills n x acts) (statement : Stmt) :
    Fills n x fun m => .begin statement m :: acts m where
  current := hx.current
  appends := hx.appends
  heeds m hlimit hsize := by
    cases hx.heeds m hlimit hsize with
    | within hsize' hresult hacts =>
      refine .within hsize' hresult ?_
      rw [hacts, List.map_cons]
      rfl
    | beyond o h =>
      refine .beyond { o with before := .begin statement m :: o.before }
        ⟨?_, h.fits, h.exceeds, h.left_eq, h.stops, ?_⟩
      · rw [h.acts_eq]
        rfl
      · rw [h.acted]
        rfl

theorem left_write (value : Value) (m : Machine) :
    left (write (value.text ++ "\n")) m = { m with sink := m.sink.write value.line } := by
  by_cases h : m.sink.hasRoom value.line.size = true
  · exact left_of_ok (if_pos h)
  · exact left_of_error (if_neg h)

theorem write_of_hasRoom {value : Value} {m : Machine}
    (h : m.sink.hasRoom value.line.size = true) :
    write (value.text ++ "\n") m = .ok ⟨⟩ { m with sink := m.sink.write value.line } :=
  if_pos h

theorem write_of_not_hasRoom {value : Value} {m : Machine}
    (h : ¬ m.sink.hasRoom value.line.size = true) :
    write (value.text ++ "\n") m
      = .error (.failure (.sink .full)) { m with sink := m.sink.write value.line } :=
  if_neg h

theorem fills_write (value : Value) :
    Fills n (write (value.text ++ "\n")) fun m => [.print value m] where
  current m := by rw [left_write]
  appends m := by
    rw [left_write]
    exact ⟨m.sink.taken value.line, rfl⟩
  heeds m hlimit hsize := by
    have hwritten : (m.sink.write value.line).written = m.sink.written ++ value.line := by
      rw [Sink.write_of_unlimited hlimit]
    have hfree : m.sink.hasRoom value.line.size = true := by
      unfold Sink.hasRoom
      rw [hlimit]
    have hroom := m.sink.hasRoom_withLimit_iff (n := n) value.size_line_ne_zero
    by_cases hfits : (m.sink.written ++ value.line).size ≤ n
    · apply Heeds.within
      · rw [left_write, hwritten]
        exact hfits
      · rw [write_of_hasRoom hfree, write_of_hasRoom (hroom.mpr hfits)]
        simp only [inMachine, Machine.withLimit, Sink.write_withLimit hlimit hfits]
      · rfl
    · refine .beyond ⟨[], value, m, []⟩ ⟨rfl, hsize, Nat.lt_of_not_le hfits, ?_, ?_, rfl⟩
      · exact ⟨.empty, by rw [left_write, hwritten, ByteArray.append_empty]; rfl⟩
      · rw [write_of_not_hasRoom (mt hroom.mp hfits)]
        rfl

theorem flush_of_fails {m : Machine} (h : m.sink.flushFails = true) :
    flush m = .error (.failure (.sink .flushFailed)) m :=
  if_pos h

theorem flush_of_not_fails {m : Machine} (h : ¬ m.sink.flushFails = true) : flush m = .ok ⟨⟩ m :=
  if_neg h

theorem left_flush (m : Machine) : left flush m = m := by
  by_cases h : m.sink.flushFails = true
  · exact left_of_error (flush_of_fails h)
  · exact left_of_ok (flush_of_not_fails h)

theorem fills_flush : Fills n flush fun _ => [] where
  current m := by rw [left_flush]
  appends m := ⟨.empty, by rw [left_flush, ByteArray.append_empty]⟩
  heeds m hlimit hsize := by
    apply Heeds.within
    · rw [left_flush]
      exact hsize
    · by_cases h : m.sink.flushFails = true
      · rw [flush_of_fails h, flush_of_fails (m := m.withLimit n) h]
        rfl
      · rw [flush_of_not_fails h, flush_of_not_fails (m := m.withLimit n) h]
        rfl
    · rfl

/-! ### Programs -/

theorem fills_exhausted : Fills n (exhausted : Run α) fun _ => [] :=
  (quiet_throw _).fills

mutual

theorem fills_execute : ∀ (steps : Nat) (s : Stmt),
    Fills n (execute steps s) (executeActs steps s)
  | 0, _ => fills_exhausted
  | steps + 1, .expression value => by
    rw [execute]
    exact ((fills_evaluate steps value).bind_quiet fun _ => quiet_pure _).begin _
  | steps + 1, .print value => by
    rw [execute]
    exact ((fills_evaluate steps value).bind fun value =>
      (fills_write value).bind_quiet fun _ => quiet_pure _).begin _
  | steps + 1, .var name initializer => by
    rw [execute]
    exact ((fills_evaluateOptional steps initializer).bind_quiet fun value =>
      quiet_currentFrame.bind fun frame =>
        (quiet_define frame name.text value).bind fun _ => quiet_pure _).begin _
  | steps + 1, .block body => by
    rw [execute, blockFrame_bind]
    exact (quiet_blockFrame.bind_fills fun frame =>
      (fills_executeAll steps body).within frame).begin _
  | steps + 1, .ifElse condition thenBranch none => by
    rw [execute]
    refine ((fills_evaluate steps condition).bind fun value => ?_).begin _
    split
    · exact fills_execute steps thenBranch
    · exact (quiet_pure _).fills
  | steps + 1, .ifElse condition thenBranch (some elseBranch) => by
    rw [execute]
    refine ((fills_evaluate steps condition).bind fun value => ?_).begin _
    split
    · exact fills_execute steps thenBranch
    · exact fills_execute steps elseBranch
  | steps + 1, .whileLoop condition body => by
    rw [execute]
    refine ((fills_evaluate steps condition).bind fun value => ?_).begin _
    split
    · refine (fills_execute steps body).bind fun flow => ?_
      cases flow with
      | normal => exact fills_execute steps (.whileLoop condition body)
      | returned value => exact (quiet_pure _).fills
    · exact (quiet_pure _).fills
  | steps + 1, .function declaration => by
    rw [execute]
    exact ((quiet_declareFunction declaration).bind fun _ => quiet_pure _).fills.begin _
  | steps + 1, .return line value => by
    rw [execute]
    exact ((fills_evaluateOptional steps value).bind_quiet fun _ => quiet_pure _).begin _
  | steps + 1, .class name superclass methods => by
    rw [execute]
    exact ((quiet_declareClass name superclass methods).bind fun _ => quiet_pure _).fills.begin _

theorem fills_executeAll : ∀ (steps : Nat) (body : List Stmt),
    Fills n (executeAll steps body) (executeAllActs steps body)
  | 0, _ => fills_exhausted
  | _ + 1, [] => (quiet_pure _).fills
  | steps + 1, s :: rest => by
    rw [executeAll]
    refine (fills_execute steps s).bind fun flow => ?_
    cases flow with
    | normal => exact fills_executeAll steps rest
    | returned value => exact (quiet_pure _).fills

theorem fills_evaluateOptional : ∀ (steps : Nat) (value : Option Expr),
    Fills n (evaluateOptional steps value) (optionalActs steps value)
  | 0, _ => fills_exhausted
  | _ + 1, none => (quiet_pure _).fills
  | steps + 1, some value => fills_evaluate steps value

theorem fills_evaluate : ∀ (steps : Nat) (e : Expr),
    Fills n (evaluate steps e) (evaluateActs steps e)
  | 0, _ => fills_exhausted
  | _ + 1, .literal _ => (quiet_pure _).fills
  | steps + 1, .grouping inner => fills_evaluate steps inner
  | steps + 1, .unary op line operand => by
    rw [evaluate]
    exact (fills_evaluate steps operand).bind_quiet fun _ => quiet_orFault _ _
  | steps + 1, .binary op line left right => by
    rw [evaluate]
    exact (fills_evaluate steps left).bind fun _ =>
      (fills_evaluate steps right).bind_quiet fun _ => quiet_orFault _ _
  | steps + 1, .logical op _ left right => by
    rw [evaluate]
    refine (fills_evaluate steps left).bind fun value => ?_
    split
    · exact (quiet_pure _).fills
    · exact fills_evaluate steps right
  | _ + 1, .variable name id => (quiet_read name id).fills
  | steps + 1, .assign name id value => by
    rw [evaluate]
    exact (fills_evaluate steps value).bind_quiet fun value =>
      (quiet_assign name id value).bind fun _ => quiet_pure _
  | steps + 1, .call callee line args => by
    rw [evaluate]
    exact (fills_evaluate steps callee).bind fun callee =>
      (fills_evaluateAll steps args).bind fun args => fills_call steps callee line args
  | steps + 1, .get object name => by
    rw [evaluate]
    refine (fills_evaluate steps object).bind_quiet fun owner => ?_
    cases owner with
    | «instance» o => exact quiet_property o name
    | _ => exact quiet_fault _ _
  | steps + 1, .set object name value => by
    rw [evaluate]
    refine (fills_evaluate steps object).bind fun owner => ?_
    cases owner with
    | «instance» o =>
      exact (fills_evaluate steps value).bind_quiet fun value =>
        (quiet_setField o name.text value).bind fun _ => quiet_pure _
    | _ => exact (quiet_fault _ _).fills
  | _ + 1, .this line id => (quiet_read ⟨"this", line⟩ id).fills
  | _ + 1, .super line id method => (quiet_superMethod line id method).fills

theorem fills_evaluateAll : ∀ (steps : Nat) (args : List Expr),
    Fills n (evaluateAll steps args) (evaluateAllActs steps args)
  | 0, _ => fills_exhausted
  | _ + 1, [] => (quiet_pure _).fills
  | steps + 1, e :: rest => by
    rw [evaluateAll]
    exact (fills_evaluate steps e).bind fun _ =>
      (fills_evaluateAll steps rest).bind_quiet fun _ => quiet_pure _

theorem fills_call : ∀ (steps : Nat) (callee : Value) (line : Nat) (args : List Value),
    Fills n (call steps callee line args) (callActs steps callee line args)
  | 0, _, _, _ => fills_exhausted
  | steps + 1, callee, line, args => by
    show Fills n _ fun m => callActs (steps + 1) callee line args m
    unfold call callActs
    rcases callee.arity? with _ | arity
    · exact (quiet_fault _ _).fills
    · dsimp only
      split
      · exact (quiet_fault _ _).fills
      · cases callee with
        | native function =>
          cases function
          exact quiet_clock.fills
        | function identity closure => exact fills_invoke steps closure args
        | «class» c => exact fills_instantiate steps c args
        | _ => exact (quiet_fault _ _).fills

theorem fills_invoke : ∀ (steps : Nat) (f : Closure) (args : List Value),
    Fills n (invoke steps f args) (invokeActs steps f args)
  | 0, _, _ => fills_exhausted
  | steps + 1, f, args => by
    rw [invoke, callFrame_bind]
    refine (quiet_callFrame f args).bind_fills fun frame =>
      ((fills_executeAll steps f.declaration.body).within frame).bind_quiet fun flow => ?_
    split
    · exact (quiet_readAt 0 "this").within f.frame
    · cases flow with
      | normal => exact quiet_pure _
      | returned value => exact quiet_pure _

theorem fills_instantiate : ∀ (steps : Nat) (c : ClassValue) (args : List Value),
    Fills n (instantiate steps c args) (instantiateActs steps c args)
  | 0, _, _ => fills_exhausted
  | steps + 1, c, args => by
    show Fills n _ fun m => instantiateActs (steps + 1) c args m
    unfold instantiate instantiateActs
    rcases c.initializer? with _ | initializer
    · exact ((quiet_newInstance c).bind fun o => quiet_pure _).fills
    · exact (quiet_newInstance c).bind_fills fun o =>
        (quiet_bindMethod initializer o).bind_fills fun f =>
          (fills_invoke steps f args).bind_quiet fun _ => quiet_pure _

end

theorem fills_executeTop (steps : Nat) : ∀ program : Program,
    Fills n (executeTop steps program) (executeTopActs steps program)
  | [] => (quiet_pure _).fills
  | s :: rest => by
    rw [executeTop]
    exact (fills_execute steps s).bind fun _ => fills_executeTop steps rest

theorem fills_interpret (steps : Nat) (program : Program) :
    Fills n (interpret steps program) (executeTopActs steps program) :=
  ((fills_executeTop steps program).bind fun _ => fills_flush).of_acts fun m => by
    rw [followedBy_nothing, List.append_nil]

end Filling

end Run

end Treewalk
