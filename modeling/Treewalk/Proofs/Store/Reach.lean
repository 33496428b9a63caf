import Treewalk.Proofs.Store.Growth

/-!
# What values reach in the store

**From a value one gets to the frame around a function, to the frames around the methods of a
class and of its ancestors, and to the fields of an instance; from a frame, to the frame around
it and on from its variables; from an instance, on from its fields.**  Together with the global
frame, which every piece of code can name, this is all that a call can get at.

A set of cells is closed when no step leads out of it.  The cells that some values reach are
closed, and stay so when those that the store does not have yet are counted in: every action of a
program changes a cell of such a set, and stores a value that leads to nothing else.
-/

namespace Treewalk

/-! ### Cells and the steps between them -/

/-- A part of the store that can change: the variables of a frame, or the fields of an
    instance. -/
inductive Cell where
  | frame (f : FrameId)
  | instance (index : Nat)
deriving DecidableEq

/-- A class holds the frames in which its methods and those of its ancestors were declared. -/
inductive ClassValue.Holds (c : ClassValue) : Cell → Prop
  | method {layer : ClassLayer} {name : String} {method : Closure} (hlayer : layer ∈ c.layers)
    (hmethod : layer.methods[name]? = some method) : c.Holds (.frame method.frame)

/-- A value holds the frame of its function, what its class holds, and its own fields. -/
inductive Value.Holds : Value → Cell → Prop
  | function {identity : Nat} {closure : Closure} :
    Holds (.function identity closure) (.frame closure.frame)
  | class {c : ClassValue} {p : Cell} (h : c.Holds p) : Holds (.class c) p
  | instance {o : Instance} : Holds (.instance o) (.instance o.index)
  | ofClass {o : Instance} {p : Cell} (h : o.ofClass.Holds p) : Holds (.instance o) p

namespace Store

/-- One step from cell to cell: outward from a frame, or to what a variable or a field
    holds. -/
inductive Leads (s : Store) : Cell → Cell → Prop
  | enclosing {f outer : FrameId} (h : s.enclosing? f = some outer) :
    Leads s (.frame f) (.frame outer)
  | bound {f : FrameId} {name : String} {value : Value} {p : Cell}
    (h : s.local? f name = some value) (hp : value.Holds p) : Leads s (.frame f) p
  | field {o : Instance} {name : String} {value : Value} {p : Cell}
    (h : s.field? o name = some value) (hp : value.Holds p) : Leads s (.instance o.index) p

/-- What can be got at from some values, or from the global frame. -/
inductive Reaches (s : Store) (roots : List Value) : Cell → Prop
  | globals : Reaches s roots (.frame globals)
  | root {value : Value} {p : Cell} (hvalue : value ∈ roots) (hp : value.Holds p) :
    Reaches s roots p
  | step {p q : Cell} (hp : Reaches s roots p) (hq : s.Leads p q) : Reaches s roots q

/-- Is the cell in the store yet? -/
def Has (s : Store) : Cell → Prop
  | .frame f => f.index < s.frames.size
  | .instance index => index < s.fields.size

instance (s : Store) : DecidablePred s.Has
  | .frame f => inferInstanceAs (Decidable (f.index < s.frames.size))
  | .instance index => inferInstanceAs (Decidable (index < s.fields.size))

/-- The cell holds the same in both stores: the same variables inside the same frame, or the
    same fields. -/
def Same (s later : Store) : Cell → Prop
  | .frame f => later.frames[f.index]? = s.frames[f.index]?
  | .instance index => later.fields[index]? = s.fields[index]?

variable {s before later : Store} {f g outer : FrameId} {name other : String} {value : Value}
variable {p q : Cell} {A : Cell → Prop} {o : Instance}

theorem Same.local? (h : s.Same later (.frame f)) (name : String) :
    later.local? f name = s.local? f name := by
  unfold Store.local?
  rw [show later.frames[f.index]? = s.frames[f.index]? from h]

theorem lt_size_of_field? (h : s.field? o name = some value) : o.index < s.fields.size := by
  unfold field? at h
  by_cases hlt : o.index < s.fields.size
  · exact hlt
  · rw [Array.getElem?_eq_none (Nat.le_of_not_lt hlt)] at h
    cases h

/-- Nothing leads from a cell that is not there. -/
theorem Leads.has (h : s.Leads p q) : s.Has p := by
  cases h with
  | enclosing h => exact lt_size_of_enclosing? h
  | bound h _ => exact lt_size_of_local? h
  | field h _ => exact lt_size_of_field? h

/-- What is around a frame was so before one more frame was made, or is what the new one was
    made in. -/
theorem eq_of_enclosing?_child (h : (s.child f).2.enclosing? g = some outer) :
    outer = f ∨ s.enclosing? g = some outer := by
  have hsize : g.index < s.frames.size + 1 := by simpa using lt_size_of_enclosing? h
  rcases Nat.lt_succ_iff_lt_or_eq.mp hsize with hold | hnew
  · exact Or.inr (by rwa [enclosing?_child_of_lt hold] at h)
  · left
    unfold Store.enclosing? Store.child at h
    rw [hnew] at h
    simp only [Array.getElem?_push_size] at h
    split at h
    · exact (Option.some.inj h).symm
    · cases h

/-! ### Sets that nothing leads out of -/

end Store

/-- All that a class holds is in the set. -/
def ClassValue.Within (A : Cell → Prop) (c : ClassValue) : Prop :=
  ∀ p, c.Holds p → A p

/-- All that a value holds is in the set. -/
def Value.Within (A : Cell → Prop) (value : Value) : Prop :=
  ∀ p, value.Holds p → A p

section Within

variable {A : Cell → Prop}

theorem Value.within_function {identity : Nat} {closure : Closure} (h : A (.frame closure.frame)) :
    (Value.function identity closure).Within A := by
  intro p hp
  cases hp
  exact h

theorem Value.Within.frame {identity : Nat} {closure : Closure}
    (h : (Value.function identity closure).Within A) : A (.frame closure.frame) :=
  h _ .function

theorem Value.within_class {c : ClassValue} (h : c.Within A) : (Value.class c).Within A := by
  intro p hp
  cases hp with
  | «class» hp => exact h p hp

theorem Value.Within.class {c : ClassValue} (h : (Value.class c).Within A) : c.Within A :=
  fun p hp => h p (.class hp)

theorem Value.within_instance {o : Instance} (hfields : A (.instance o.index))
    (hclass : o.ofClass.Within A) : (Value.instance o).Within A := by
  intro p hp
  cases hp with
  | «instance» => exact hfields
  | ofClass hp => exact hclass p hp

theorem Value.Within.fields {o : Instance} (h : (Value.instance o).Within A) :
    A (.instance o.index) :=
  h _ .instance

theorem Value.Within.ofClass {o : Instance} (h : (Value.instance o).Within A) :
    o.ofClass.Within A :=
  fun p hp => h p (.ofClass hp)

theorem Value.within_nil : Value.nil.Within A := by
  intro p hp
  cases hp

/-- A constant holds no cell. -/
theorem Literal.within_value (value : Literal) : value.value.Within A := by
  intro p hp
  cases value <;> cases hp

theorem ClassValue.Within.findMethod? {c : ClassValue} (h : c.Within A) {name : String}
    {method : Closure} (hfind : c.findMethod? name = some method) : A (.frame method.frame) := by
  obtain ⟨layer, hlayer, hmethod⟩ := List.exists_of_findSome?_eq_some hfind
  exact h _ (.method hlayer hmethod)

end Within

namespace Store

variable {s before later : Store} {f g outer : FrameId} {name other : String} {value : Value}
variable {p q : Cell} {A : Cell → Prop} {o : Instance}

/-- Since the first store, nothing outside the set has changed; nothing leads out of the set, and
    all that was not there before belongs to it. -/
structure Confined (A : Cell → Prop) (before s : Store) : Prop where
  frames : before.frames.size ≤ s.frames.size
  fields : before.fields.size ≤ s.fields.size
  same : ∀ p, before.Has p → ¬ A p → before.Same s p
  closed : ∀ {p q}, A p → s.Leads p q → A q
  fresh : ∀ p, ¬ before.Has p → A p

namespace Confined

/-- At first, the set is what some values reach. -/
theorem start (s : Store) (roots : List Value) :
    s.Confined (fun p => s.Reaches roots p ∨ ¬ s.Has p) s where
  frames := Nat.le_refl _
  fields := Nat.le_refl _
  same p _ _ := by cases p <;> rfl
  closed hp hq := Or.inl (.step (hp.resolve_right fun hnot => hnot hq.has) hq)
  fresh _ hp := Or.inr hp

/-- Nothing is outside of everything. -/
theorem everything (s : Store) : s.Confined (fun _ => True) s where
  frames := Nat.le_refl _
  fields := Nat.le_refl _
  same _ _ h := absurd trivial h
  closed _ _ := trivial
  fresh _ _ := trivial

/-! ### Lookups stay inside -/

theorem enclosing? (h : before.Confined A s) (hf : A (.frame f))
    (houter : s.enclosing? f = some outer) : A (.frame outer) :=
  h.closed hf (.enclosing houter)

theorem local? (h : before.Confined A s) (hf : A (.frame f))
    (hvalue : s.local? f name = some value) : value.Within A :=
  fun _ hp => h.closed hf (.bound hvalue hp)

theorem field? (h : before.Confined A s) (ho : A (.instance o.index))
    (hvalue : s.field? o name = some value) : value.Within A :=
  fun _ hp => h.closed ho (.field hvalue hp)

theorem ancestor? (h : before.Confined A s) {hops : Nat} (hf : A (.frame f))
    (hfound : s.ancestor? f hops = some outer) : A (.frame outer) := by
  induction hops generalizing f with
  | zero =>
    cases hfound
    exact hf
  | succ hops ih =>
    rw [Store.ancestor?] at hfound
    split at hfound
    · rename_i next hnext
      exact ih (h.enclosing? hf hnext) hfound
    · cases hfound

theorem owner? (h : before.Confined A s) (hf : A (.frame f))
    (howner : s.owner? f name = some outer) : A (.frame outer) := by
  induction f using Store.owner?.induct s name with
  | case1 f hbound =>
    rw [Store.owner?, if_pos hbound] at howner
    cases howner
    exact hf
  | case2 f hbound next hnext ih =>
    rw [Store.owner?, if_neg hbound] at howner
    split at howner
    · rename_i next' hnext'
      rw [hnext] at hnext'
      cases hnext'
      exact ih (h.enclosing? hf hnext) howner
    · cases howner
  | case3 f hbound hnext =>
    rw [Store.owner?, if_neg hbound] at howner
    split at howner
    · rename_i next' hnext'
      rw [hnext] at hnext'
      cases hnext'
    · cases howner

theorem getAt (h : before.Confined A s) {hops : Nat} (hf : A (.frame f))
    (hvalue : s.getAt f hops name = .ok value) : value.Within A := by
  unfold Store.getAt at hvalue
  split at hvalue
  · rename_i owner howner
    split at hvalue
    · rename_i found hfound
      cases hvalue
      exact h.local? (h.ancestor? hf howner) hfound
    · cases hvalue
  · cases hvalue

/-! ### Changes stay inside -/

theorem define (h : before.Confined A s) (hf : A (.frame f)) (name : String)
    (hvalue : value.Within A) : before.Confined A (s.define f name value) where
  frames := by
    rw [size_define]
    exact h.frames
  fields := h.fields
  same p hp hout := by
    have hold := h.same p hp hout
    cases p with
    | frame g =>
      have hne : g ≠ f := by
        rintro rfl
        exact hout hf
      exact (frames_define_of_ne hne s name value).trans hold
    | «instance» index => exact hold
  closed hp hq := by
    cases hq with
    | enclosing houter => exact h.enclosing? hp (by simpa using houter)
    | bound hfound hq =>
      rcases eq_of_local?_define hfound with rfl | hfound
      · exact hvalue _ hq
      · exact h.local? hp hfound _ hq
    | field hfound hq => exact h.field? hp hfound _ hq
  fresh := h.fresh

theorem child (h : before.Confined A s) (hf : A (.frame f)) :
    before.Confined A (s.child f).2 where
  frames := by
    rw [size_child]
    exact Nat.le_succ_of_le h.frames
  fields := h.fields
  same p hp hout := by
    have hold := h.same p hp hout
    cases p with
    | frame g =>
      have hlt : g.index < s.frames.size := Nat.lt_of_lt_of_le hp h.frames
      exact (frames_child_of_lt hlt f).trans hold
    | «instance» index => exact hold
  closed hp hq := by
    cases hq with
    | enclosing houter =>
      rcases eq_of_enclosing?_child houter with rfl | houter
      · exact hf
      · exact h.enclosing? hp houter
    | bound hfound hq => exact h.local? hp (by simpa using hfound) _ hq
    | field hfound hq => exact h.field? hp hfound _ hq
  fresh := h.fresh

/-- A frame that is made now was not there before. -/
theorem frame_child (h : before.Confined A s) (f : FrameId) : A (.frame (s.child f).1) :=
  h.fresh _ (Nat.not_lt.mpr h.frames)

theorem newInstance (h : before.Confined A s) (c : ClassValue) :
    before.Confined A (s.newInstance c).2 where
  frames := h.frames
  fields := by
    show _ ≤ (s.fields.push ∅).size
    rw [Array.size_push]
    exact Nat.le_succ_of_le h.fields
  same p hp hout := by
    have hold := h.same p hp hout
    cases p with
    | frame g => exact hold
    | «instance» index =>
      have hlt : index < s.fields.size := Nat.lt_of_lt_of_le hp h.fields
      show (s.fields.push ∅)[index]? = _
      rw [Array.getElem?_push_lt hlt, ← Array.getElem?_eq_getElem hlt]
      exact hold
  closed hp hq := by
    cases hq with
    | enclosing houter => exact h.enclosing? hp houter
    | bound hfound hq => exact h.local? hp hfound _ hq
    | field hfound hq => exact h.field? hp (field?_of_newInstance c hfound) _ hq
  fresh := h.fresh

/-- An instance that is made now was not there before. -/
theorem within_newInstance (h : before.Confined A s) {c : ClassValue} (hc : c.Within A) :
    (Value.instance (s.newInstance c).1).Within A :=
  Value.within_instance (h.fresh _ (Nat.not_lt.mpr h.fields)) hc

theorem setField (h : before.Confined A s) (ho : A (.instance o.index)) (name : String)
    (hvalue : value.Within A) : before.Confined A (s.setField o name value) where
  frames := h.frames
  fields := by
    show _ ≤ (s.fields.modify o.index _).size
    rw [Array.size_modify]
    exact h.fields
  same p hp hout := by
    have hold := h.same p hp hout
    cases p with
    | frame g => exact hold
    | «instance» index =>
      have hne : o.index ≠ index := fun hindex => hout (hindex ▸ ho)
      show (s.fields.modify o.index _)[index]? = _
      rw [Array.getElem?_modify, if_neg hne]
      exact hold
  closed hp hq := by
    cases hq with
    | enclosing houter => exact h.enclosing? hp houter
    | bound hfound hq => exact h.local? hp hfound _ hq
    | field hfound hq =>
      rcases eq_of_field?_setField hfound with rfl | hfound
      · exact hvalue _ hq
      · exact h.field? hp hfound _ hq
  fresh := h.fresh

end Confined

end Store

end Treewalk
