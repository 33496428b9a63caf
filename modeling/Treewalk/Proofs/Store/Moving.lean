import Treewalk.Machine
import Treewalk.Proofs.Syntax.Moving

/-!
# Moving what a store holds

**Functions remember the lines of their source, and nothing else in a store does.**  A store can
be moved to other lines, its places and names staying what they are.
-/

namespace Treewalk

variable (f : Nat → Nat)

def Closure.move (closure : Closure) : Closure :=
  ⟨closure.declaration.move (.ofLines f), closure.frame, closure.isInitializer⟩

def ClassLayer.move (layer : ClassLayer) : ClassLayer :=
  ⟨layer.identity, layer.name, layer.methods.map fun _ method => method.move f⟩

def ClassValue.move (c : ClassValue) : ClassValue :=
  ⟨c.own.move f, c.ancestors.map (ClassLayer.move f)⟩

def Instance.move (o : Instance) : Instance :=
  ⟨o.index, o.ofClass.move f⟩

/-- A value, with the lines of its functions changed. -/
def Value.move : Value → Value
  | .native which => .native which
  | .function identity closure => .function identity (closure.move f)
  | .class value => .class (value.move f)
  | .instance value => .instance (value.move f)
  | .number value => .number value
  | .string value => .string value
  | .bool value => .bool value
  | .nil => .nil

def Frame.move (frame : Frame) : Frame :=
  ⟨frame.enclosing, frame.bound.map fun _ value => value.move f⟩

/-- A store, with the lines of all functions in it changed. -/
def Store.move (s : Store) : Store :=
  ⟨s.frames.map (Frame.move f), s.fields.map fun own => own.map fun _ value => value.move f⟩

/-- A machine, with the lines of all functions in its store changed. -/
def Machine.move (m : Machine) : Machine :=
  { m with store := m.store.move f }

/-! ### Lookups -/

theorem Store.local?_move (s : Store) (frame : FrameId) (name : String) :
    (s.move f).local? frame name = (s.local? frame name).map (Value.move f) := by
  unfold Store.local?
  simp only [Store.move, Array.getElem?_map]
  rcases s.frames[frame.index]? with _ | found
  · rfl
  · simp only [Option.map_some, Frame.move, Std.ExtTreeMap.getElem?_map]

theorem Store.enclosing?_move (s : Store) (frame : FrameId) :
    (s.move f).enclosing? frame = s.enclosing? frame := by
  unfold Store.enclosing?
  simp only [Store.move, Array.getElem?_map]
  rcases s.frames[frame.index]? with _ | found <;> rfl

theorem Store.field?_move (s : Store) (o o' : Instance) (ho : o'.index = o.index) (name : String) :
    (s.move f).field? o' name = (s.field? o name).map (Value.move f) := by
  unfold Store.field?
  simp only [Store.move, Array.getElem?_map, ho]
  rcases s.fields[o.index]? with _ | found
  · rfl
  · simp only [Option.map_some, Std.ExtTreeMap.getElem?_map]

theorem Store.size_move (s : Store) : (s.move f).frames.size = s.frames.size :=
  Array.size_map

/-! ### Moving nowhere -/

theorem Closure.move_same (closure : Closure) : closure.move (fun line => line) = closure := by
  cases closure
  simp only [Closure.move, FunctionDecl.move_same]

theorem ClassLayer.move_same (layer : ClassLayer) : layer.move (fun line => line) = layer := by
  cases layer
  simp only [ClassLayer.move, Closure.move_same, Std.ExtTreeMap.map_id]

theorem ClassValue.move_same (c : ClassValue) : c.move (fun line => line) = c := by
  have hlayers : ClassLayer.move (fun line => line) = id := funext ClassLayer.move_same
  cases c
  simp only [ClassValue.move, hlayers, id_eq, List.map_id]

theorem Value.move_same (value : Value) : value.move (fun line => line) = value := by
  cases value <;> simp only [Value.move, Closure.move_same, Instance.move, ClassValue.move_same]

theorem Store.move_same (s : Store) : s.move (fun line => line) = s := by
  have hframes : Frame.move (fun line => line) = id := by
    funext frame
    cases frame
    simp only [Frame.move, Value.move_same, Std.ExtTreeMap.map_id, id_eq]
  cases s
  simp only [Store.move, hframes, Value.move_same, Std.ExtTreeMap.map_id, Array.map_id,
    Array.map_id']

theorem Machine.move_same (m : Machine) : m.move (fun line => line) = m := by
  simp only [Machine.move, Store.move_same]

end Treewalk
