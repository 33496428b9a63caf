import Treewalk.Machine
import Treewalk.Operation
import Treewalk.Proofs.Syntax.Renumbering

/-!
# Other numbers in a store

**Functions carry the numbers of their references, and nothing else in a store does.**  A store can
be given other numbers: its places, its names and the texts of its values stay what they are, and
whatever is done to the store can be done before or after.
-/

namespace Treewalk

variable (ι : Nat → Nat)

def Closure.renumber (closure : Closure) : Closure :=
  ⟨closure.declaration.move (.ofIds ι), closure.frame, closure.isInitializer⟩

def ClassLayer.renumber (layer : ClassLayer) : ClassLayer :=
  ⟨layer.identity, layer.name, layer.methods.map fun _ method => method.renumber ι⟩

def ClassValue.renumber (c : ClassValue) : ClassValue :=
  ⟨c.own.renumber ι, c.ancestors.map (ClassLayer.renumber ι)⟩

def Instance.renumber (o : Instance) : Instance :=
  ⟨o.index, o.ofClass.renumber ι⟩

/-- A value, with other numbers in its functions. -/
def Value.renumber : Value → Value
  | .native which => .native which
  | .function identity closure => .function identity (closure.renumber ι)
  | .class value => .class (value.renumber ι)
  | .instance value => .instance (value.renumber ι)
  | .number value => .number value
  | .string value => .string value
  | .bool value => .bool value
  | .nil => .nil

def Frame.renumber (frame : Frame) : Frame :=
  ⟨frame.enclosing, frame.bound.map fun _ value => value.renumber ι⟩

/-- A store, with other numbers in all its functions. -/
def Store.renumber (s : Store) : Store :=
  ⟨s.frames.map (Frame.renumber ι), s.fields.map fun own => own.map fun _ value => value.renumber ι⟩

/-! ### Values -/

section Values

theorem FunctionDecl.params_renumber (f : FunctionDecl) :
    (f.move (.ofIds ι)).params = f.params := by
  cases f
  rw [FunctionDecl.move, names_move_ofIds]

theorem FunctionDecl.body_renumber (f : FunctionDecl) :
    (f.move (.ofIds ι)).body = moveStatements (.ofIds ι) f.body := by
  cases f
  rw [FunctionDecl.move]

theorem Closure.name_renumber (closure : Closure) : (closure.renumber ι).name = closure.name := by
  simp [Closure.name, Closure.renumber]

theorem Closure.arity_renumber (closure : Closure) :
    (closure.renumber ι).arity = closure.arity := by
  simp [Closure.arity, Closure.renumber, FunctionDecl.params_renumber]

theorem ClassValue.layers_renumber (c : ClassValue) :
    (c.renumber ι).layers = c.layers.map (ClassLayer.renumber ι) :=
  rfl

theorem ClassValue.findMethod?_renumber (c : ClassValue) (name : String) :
    (c.renumber ι).findMethod? name = (c.findMethod? name).map (Closure.renumber ι) := by
  unfold ClassValue.findMethod?
  rw [layers_renumber]
  induction c.layers with
  | nil => rfl
  | cons layer layers ih =>
    rw [List.map_cons, List.findSome?_cons, List.findSome?_cons, ih]
    simp only [ClassLayer.renumber, Std.ExtTreeMap.getElem?_map]
    rcases layer.methods[name]? with _ | method <;> rfl

theorem ClassValue.initializer?_renumber (c : ClassValue) :
    (c.renumber ι).initializer? = c.initializer?.map (Closure.renumber ι) :=
  c.findMethod?_renumber ι initializerName

theorem ClassValue.arity_renumber (c : ClassValue) : (c.renumber ι).arity = c.arity := by
  unfold ClassValue.arity
  rw [initializer?_renumber]
  rcases c.initializer? with _ | method
  · rfl
  · exact method.arity_renumber ι

@[simp]
theorem Value.text_renumber (value : Value) : (value.renumber ι).text = value.text := by
  cases value with
  | function _ closure => simp only [Value.renumber, Value.text, Closure.name_renumber]
  | _ => rfl

@[simp]
theorem Value.isTruthy_renumber (value : Value) : (value.renumber ι).isTruthy = value.isTruthy := by
  cases value <;> rfl

theorem Value.equals_renumber (left right : Value) :
    (left.renumber ι).equals (right.renumber ι) = left.equals right := by
  cases left <;> cases right <;> rfl

theorem Value.arity?_renumber (value : Value) : (value.renumber ι).arity? = value.arity? := by
  cases value with
  | function _ closure => exact congrArg some (closure.arity_renumber ι)
  | «class» c => exact congrArg some (c.arity_renumber ι)
  | _ => rfl

theorem Literal.renumber_value (value : Literal) : value.value.renumber ι = value.value := by
  cases value <;> rfl

end Values

/-! ### Operators -/

section Operators

theorem BinaryOp.arithmetic_renumber (operation : Float → Float → Float) (left right : Value) :
    arithmetic operation (left.renumber ι) (right.renumber ι)
      = (arithmetic operation left right).map (Value.renumber ι) := by
  cases left <;> cases right <;> rfl

theorem BinaryOp.comparison_renumber (holds : Float → Float → Bool) (left right : Value) :
    comparison holds (left.renumber ι) (right.renumber ι)
      = (comparison holds left right).map (Value.renumber ι) := by
  cases left <;> cases right <;> rfl

theorem BinaryOp.sum_renumber (left right : Value) :
    sum (left.renumber ι) (right.renumber ι) = (sum left right).map (Value.renumber ι) := by
  cases left <;> cases right <;> rfl

/-- Operators look at no numbers of references. -/
theorem BinaryOp.apply_renumber (op : BinaryOp) (left right : Value) :
    op.apply (left.renumber ι) (right.renumber ι)
      = (op.apply left right).map (Value.renumber ι) := by
  cases op with
  | add => exact sum_renumber ι left right
  | subtract | multiply | divide => exact arithmetic_renumber ι _ left right
  | less | lessEqual | greater | greaterEqual => exact comparison_renumber ι _ left right
  | equal | notEqual => simp only [apply, Value.equals_renumber]; rfl

theorem UnaryOp.apply_renumber (op : UnaryOp) (operand : Value) :
    op.apply (operand.renumber ι) = (op.apply operand).map (Value.renumber ι) := by
  cases op <;> cases operand <;> rfl

theorem LogicalOp.decides_renumber (op : LogicalOp) (left : Value) :
    op.decides (left.renumber ι) = op.decides left := by
  cases op <;> simp only [decides, Value.isTruthy_renumber]

end Operators

/-! ### Frames -/

namespace Store

variable (s : Store)

theorem local?_renumber (frame : FrameId) (name : String) :
    (s.renumber ι).local? frame name = (s.local? frame name).map (Value.renumber ι) := by
  unfold local?
  simp only [renumber, Array.getElem?_map]
  rcases s.frames[frame.index]? with _ | found
  · rfl
  · simp only [Option.map_some, Frame.renumber, Std.ExtTreeMap.getElem?_map]

theorem enclosing?_renumber (frame : FrameId) :
    (s.renumber ι).enclosing? frame = s.enclosing? frame := by
  unfold enclosing?
  simp only [renumber, Array.getElem?_map]
  rcases s.frames[frame.index]? with _ | found <;> rfl

theorem owner?_renumber (frame : FrameId) (name : String) :
    (s.renumber ι).owner? frame name = s.owner? frame name := by
  fun_induction owner? s frame name with
  | case1 frame hlocal =>
    rw [owner?, local?_renumber, Option.isSome_map, if_pos hlocal]
  | case2 frame hlocal outer houter ih =>
    have hsame := (s.enclosing?_renumber ι frame).trans houter
    rw [owner?, local?_renumber, Option.isSome_map, if_neg hlocal]
    split
    · rename_i found hfound
      rw [Option.some.inj (hfound.symm.trans hsame), ih]
    · rename_i hnone
      cases hnone.symm.trans hsame
  | case3 frame hlocal hnone =>
    have hsame := (s.enclosing?_renumber ι frame).trans hnone
    rw [owner?, local?_renumber, Option.isSome_map, if_neg hlocal]
    split
    · rename_i found hfound
      cases hfound.symm.trans hsame
    · rfl

theorem get?_renumber (frame : FrameId) (name : String) :
    (s.renumber ι).get? frame name = (s.get? frame name).map (Value.renumber ι) := by
  unfold get?
  rw [owner?_renumber]
  rcases s.owner? frame name with _ | owner
  · rfl
  · exact s.local?_renumber ι owner name

theorem ancestor?_renumber (frame : FrameId) (hops : Nat) :
    (s.renumber ι).ancestor? frame hops = s.ancestor? frame hops := by
  induction hops generalizing frame with
  | zero => rfl
  | succ hops ih =>
    unfold ancestor?
    rw [enclosing?_renumber]
    rcases s.enclosing? frame with _ | outer
    · rfl
    · exact ih outer

theorem getAt_renumber (frame : FrameId) (hops : Nat) (name : String) :
    (s.renumber ι).getAt frame hops name = (s.getAt frame hops name).map (Value.renumber ι) := by
  unfold getAt
  rw [ancestor?_renumber]
  rcases s.ancestor? frame hops with _ | found
  · rfl
  · dsimp only
    rw [local?_renumber]
    rcases s.local? found name with _ | value <;> rfl

theorem map_insert_renumber (bound : Bound) (name : String) (value : Value) :
    (bound.insert name value).map (fun _ value => value.renumber ι)
      = (bound.map fun _ value => value.renumber ι).insert name (value.renumber ι) := by
  refine Std.ExtTreeMap.ext_getElem? fun other => ?_
  simp only [Std.ExtTreeMap.getElem?_map, Std.ExtTreeMap.getElem?_insert]
  split <;> rfl

/-- An entry of an array is changed before or after all entries are mapped. -/
theorem map_modify {α β : Type} {u : α → β} {change : α → α} {change' : β → β}
    (h : ∀ entry, u (change entry) = change' (u entry)) (entries : Array α) (i : Nat) :
    (entries.modify i change).map u = (entries.map u).modify i change' := by
  refine Array.ext_getElem? fun j => ?_
  simp only [Array.getElem?_map, Array.getElem?_modify]
  split
  · rcases entries[j]? with _ | entry
    · rfl
    · exact congrArg some (h entry)
  · rfl

theorem renumber_define (frame : FrameId) (name : String) (value : Value) :
    (s.define frame name value).renumber ι
      = (s.renumber ι).define frame name (value.renumber ι) := by
  rcases s with ⟨frames, fields⟩
  simp only [define, renumber, Store.mk.injEq, and_true]
  refine map_modify ?_ frames frame.index
  rintro ⟨enclosing, bound⟩
  exact congrArg (Frame.mk enclosing) (map_insert_renumber ι bound name value)

theorem renumber_child (frame : FrameId) :
    (s.renumber ι).child frame = ((s.child frame).1, (s.child frame).2.renumber ι) := by
  rcases s with ⟨frames, fields⟩
  have hempty : Frame.renumber ι ⟨some frame, ∅⟩ = ⟨some frame, ∅⟩ :=
    congrArg (Frame.mk _) (Std.ExtTreeMap.ext_getElem? fun name => by simp)
  simp only [child, renumber, Array.map_push, Array.size_map, hempty]

theorem renumber_newInstance (c : ClassValue) :
    (s.renumber ι).newInstance (c.renumber ι)
      = ((s.newInstance c).1.renumber ι, (s.newInstance c).2.renumber ι) := by
  rcases s with ⟨frames, fields⟩
  have hempty : (∅ : Bound).map (fun _ value => value.renumber ι) = ∅ :=
    Std.ExtTreeMap.ext_getElem? fun name => by simp
  simp only [newInstance, renumber, Instance.renumber, Array.map_push, Array.size_map, hempty]

theorem field?_renumber (o : Instance) (name : String) :
    (s.renumber ι).field? (o.renumber ι) name = (s.field? o name).map (Value.renumber ι) := by
  unfold field?
  simp only [renumber, Array.getElem?_map, Instance.renumber]
  rcases s.fields[o.index]? with _ | found
  · rfl
  · simp only [Option.map_some, Std.ExtTreeMap.getElem?_map]

theorem renumber_setField (o : Instance) (name : String) (value : Value) :
    (s.setField o name value).renumber ι
      = (s.renumber ι).setField (o.renumber ι) name (value.renumber ι) := by
  rcases s with ⟨frames, fields⟩
  simp only [setField, renumber, Instance.renumber, Store.mk.injEq, true_and]
  exact map_modify (fun own => map_insert_renumber ι own name value) fields o.index

end Store

end Treewalk
