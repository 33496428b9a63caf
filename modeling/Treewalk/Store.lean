import Treewalk.Value

/-!
# The store

**Variables live in frames, and each frame but the first leads outward to an older one.**  Names
are found either by walking outward until a frame binds them, or by a number of steps that was
counted beforehand.  The walk is written once, as the search for the frame that owns a name;
reading and assigning follow from it.

Fields of instances live beside the frames.  Nothing is ever removed from the store, so the
places that values hold stay good.

Every change takes the store apart before it makes the new one.  The old parts are then held by
nothing else, and the arrays are changed in place.
-/

namespace Treewalk

open Text

/-- Names with their values. -/
abbrev Bound := Std.ExtTreeMap String Value

/-- A frame: the frame around it, and the names that it binds (`Environment`). -/
structure Frame where
  enclosing : Option FrameId
  bound : Bound

/-- The frames and the fields of all instances, each in the order of creation. -/
structure Store where
  frames : Array Frame
  fields : Array Bound

/-- What cannot happen when hop counts fit the frames. -/
inductive Breach where
  | tooFewFrames
  | unboundAt (name : String) (hops : Nat)
deriving DecidableEq, Repr

/-- What a breach is called. -/
def Breach.message : Breach → String
  | .tooFewFrames => "resolver distance exceeds environment depth"
  | .unboundAt name hops => s!"resolved binding '" ++ name ++ s!"' missing at depth {hops}"

namespace Store

/-! ### Frames -/

/-- The frame of the global variables. -/
def globals : FrameId := ⟨0⟩

/-- A store with one empty frame. -/
def initial : Store :=
  { frames := #[⟨none, ∅⟩], fields := #[] }

/-- The frame around another.  It is always an older one. -/
def enclosing? (s : Store) (f : FrameId) : Option FrameId :=
  match s.frames[f.index]? with
  | some frame =>
    match frame.enclosing with
    | some outer => if outer.index < f.index then some outer else none
    | none => none
  | none => none

theorem enclosing?_lt {s : Store} {f outer : FrameId} (h : s.enclosing? f = some outer) :
    outer.index < f.index := by
  unfold enclosing? at h
  split at h
  · split at h
    · split at h
      · cases h
        assumption
      · cases h
    · cases h
  · cases h

/-- The value that a frame itself binds to a name. -/
def local? (s : Store) (f : FrameId) (name : String) : Option Value :=
  match s.frames[f.index]? with
  | some frame => frame.bound[name]?
  | none => none

/-- Binds a name in a frame, whether or not it was bound there (`Environment::define`). -/
def define (s : Store) (f : FrameId) (name : String) (value : Value) : Store :=
  match s with
  | ⟨frames, fields⟩ =>
    ⟨frames.modify f.index fun ⟨enclosing, bound⟩ => ⟨enclosing, bound.insert name value⟩, fields⟩

/-- A new frame inside another (`child_of`). -/
def child (s : Store) (f : FrameId) : FrameId × Store :=
  match s with
  | ⟨frames, fields⟩ => (⟨frames.size⟩, ⟨frames.push ⟨some f, ∅⟩, fields⟩)

theorem local?_define_self {s : Store} {f : FrameId} (h : f.index < s.frames.size)
    (name : String) (value : Value) :
    (s.define f name value).local? f name = some value := by
  simp [local?, define, Array.getElem?_modify, Array.getElem?_eq_getElem h]

/-- No other name and no other frame is changed. -/
theorem local?_define_of_ne {f g : FrameId} {name other : String} (h : g ≠ f ∨ other ≠ name)
    (s : Store) (value : Value) :
    (s.define f name value).local? g other = s.local? g other := by
  simp only [local?, define, Array.getElem?_modify]
  by_cases hindex : f.index = g.index
  · have hg : g = f := by
      cases f
      cases g
      simp_all
    have hname : name ≠ other := (h.resolve_left fun hne => hne hg).symm
    rw [if_pos hindex]
    rcases s.frames[g.index]? with _ | frame
    · rfl
    · simp [Std.ExtTreeMap.getElem?_insert, hname]
  · rw [if_neg hindex]

@[simp]
theorem enclosing?_define (s : Store) (f g : FrameId) (name : String) (value : Value) :
    (s.define f name value).enclosing? g = s.enclosing? g := by
  simp only [enclosing?, define, Array.getElem?_modify]
  by_cases hindex : f.index = g.index
  · rw [if_pos hindex]
    rcases s.frames[g.index]? with _ | frame <;> rfl
  · rw [if_neg hindex]

/-- A new frame binds nothing. -/
@[simp]
theorem local?_child (s : Store) (f g : FrameId) (name : String) :
    (s.child f).2.local? g name = s.local? g name := by
  simp only [local?, child, Array.getElem?_push]
  by_cases hindex : g.index = s.frames.size
  · simp [hindex]
  · rw [if_neg hindex]

/-- A new frame leads to the one it was made in. -/
theorem enclosing?_child_self {s : Store} {f : FrameId} (h : f.index < s.frames.size) :
    (s.child f).2.enclosing? (s.child f).1 = some f := by
  simp [enclosing?, child, h]

/-- Older frames lead where they led before. -/
theorem enclosing?_child_of_lt {s : Store} {g : FrameId} (h : g.index < s.frames.size)
    (f : FrameId) : (s.child f).2.enclosing? g = s.enclosing? g := by
  unfold enclosing? child
  rw [Array.getElem?_push_lt h, Array.getElem?_eq_getElem h]

/-- The names that a frame binds, in the order of their bytes. -/
def names (s : Store) (f : FrameId) : List String :=
  match s.frames[f.index]? with
  | some frame => frame.bound.keys
  | none => []

/-! ### Walking outward -/

/-- The nearest frame, from `f` outward, that binds a name. -/
def owner? (s : Store) (f : FrameId) (name : String) : Option FrameId :=
  if (s.local? f name).isSome then
    some f
  else
    match _h : s.enclosing? f with
    | some outer => s.owner? outer name
    | none => none
termination_by f.index
decreasing_by exact enclosing?_lt _h

/-- The value of a name in the nearest frame that binds it (`Environment::get`). -/
def get? (s : Store) (f : FrameId) (name : String) : Option Value :=
  match s.owner? f name with
  | some owner => s.local? owner name
  | none => none

/-- Changes the value of a name in the nearest frame that binds it (`Environment::assign`). -/
def assign? (s : Store) (f : FrameId) (name : String) (value : Value) : Option Store :=
  match s.owner? f name with
  | some owner => some (s.define owner name value)
  | none => none

/-! ### Counted steps -/

/-- The frame a number of steps outward (`ancestor`). -/
def ancestor? (s : Store) (f : FrameId) : (hops : Nat) → Option FrameId
  | 0 => some f
  | hops + 1 =>
    match s.enclosing? f with
    | some outer => s.ancestor? outer hops
    | none => none

/-- The value of a name in the frame a number of steps outward (`get_at`). -/
def getAt (s : Store) (f : FrameId) (hops : Nat) (name : String) : Except Breach Value :=
  match s.ancestor? f hops with
  | some frame =>
    match s.local? frame name with
    | some value => .ok value
    | none => .error (.unboundAt name hops)
  | none => .error .tooFewFrames

/-- Binds a name in the frame a number of steps outward (`assign_at`). -/
def assignAt (s : Store) (f : FrameId) (hops : Nat) (name : String) (value : Value) :
    Except Breach Store :=
  match s.ancestor? f hops with
  | some frame => .ok (s.define frame name value)
  | none => .error .tooFewFrames

/-! ### Instances -/

/-- A new instance without fields (`Instance::new`). -/
def newInstance (s : Store) (c : ClassValue) : Instance × Store :=
  match s with
  | ⟨frames, fields⟩ => (⟨fields.size, c⟩, ⟨frames, fields.push ∅⟩)

/-- The value of a field. -/
def field? (s : Store) (o : Instance) (name : String) : Option Value :=
  match s.fields[o.index]? with
  | some fields => fields[name]?
  | none => none

/-- Sets a field, whether or not it was there (`Instance::set`). -/
def setField (s : Store) (o : Instance) (name : String) (value : Value) : Store :=
  match s with
  | ⟨frames, fields⟩ => ⟨frames, fields.modify o.index fun own => own.insert name value⟩

/-- The names of the fields of an instance, in the order of their bytes. -/
def fieldNames (s : Store) (o : Instance) : List String :=
  match s.fields[o.index]? with
  | some fields => fields.keys
  | none => []

/-! ### Descriptions

A description names the parts of a value without showing their values, which may lead back to
it. -/

/-- Describes a frame. -/
def describeFrame (s : Store) (f : FrameId) : String :=
  "Environment \x7b names: " ++ Quoted.names (s.names f) ++ ", has_enclosing: "
    ++ toString (s.enclosing? f).isSome ++ " \x7d"

/-- Describes a function or an instance. -/
def describe? (s : Store) : Value → Option String
  | .function _ closure =>
    some ("Function(Function \x7b name: " ++ Quoted.name closure.name ++ ", arity: "
      ++ toString closure.arity ++ ", is_initializer: " ++ toString closure.isInitializer
      ++ " \x7d)")
  | .instance value =>
    some ("Instance(RefCell \x7b value: Instance \x7b class: "
      ++ Quoted.name value.ofClass.own.name ++ ", fields: " ++ Quoted.names (s.fieldNames value)
      ++ " \x7d \x7d)")
  | _ => none

end Store

end Treewalk
