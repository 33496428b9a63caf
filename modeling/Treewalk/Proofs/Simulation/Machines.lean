import Treewalk.Evaluation
import Treewalk.Proofs.Simulation.Likeness
import Treewalk.Proofs.Store.Growth
import Treewalk.Proofs.Store.Labels

/-!
# Machines that are alike

**Two machines are alike when their frames match one by one, and each frame binds the same
values under exchanged names.**  A world records, for every frame, how its names are exchanged
and which frame lies around it.  Worlds only grow at the end, as stores do, and what is alike in
a world is alike in every larger one.

Functions match when their declarations are alike in the scopes that their frame stands for.
-/

namespace Treewalk

/-! ### Worlds -/

/-- How the names of each frame are exchanged, and the frame around it. -/
abbrev World := Labels Renaming

namespace Correspondence

variable (c : Correspondence) (w : World)

/-! ### Values -/

/-- The same function in the same frame. -/
structure ClosureLike (f f' : Closure) : Prop where
  frame : f'.frame = f.frame
  isInitializer : f'.isInitializer = f.isInitializer
  declaration : ∃ renamings, w.Chain f.frame renamings
    ∧ FunctionLike c renamings f.declaration f'.declaration

/-- A method that is not bound yet: the frame for `this` is still missing. -/
structure MethodLike (f f' : Closure) : Prop where
  frame : f'.frame = f.frame
  isInitializer : f'.isInitializer = f.isInitializer
  declaration : ∃ renamings, w.Chain f.frame renamings
    ∧ FunctionLike c (.same :: renamings) f.declaration f'.declaration

/-- The same layer of a class. -/
structure LayerLike (layer layer' : ClassLayer) : Prop where
  identity : layer'.identity = layer.identity
  name : layer'.name = layer.name
  methods : ∀ name : String, Option.Rel (MethodLike c w) layer.methods[name]? layer'.methods[name]?

/-- The same class. -/
structure ClassLike (k k' : ClassValue) : Prop where
  own : LayerLike c w k.own k'.own
  ancestors : List.Forall₂ (LayerLike c w) k.ancestors k'.ancestors

/-- The same instance. -/
structure InstanceLike (o o' : Instance) : Prop where
  index : o'.index = o.index
  ofClass : ClassLike c w o.ofClass o'.ofClass

/-- The same value. -/
inductive ValueLike : Value → Value → Prop
  | native (f : Native) : ValueLike (.native f) (.native f)
  | function {identity : Nat} {f f' : Closure} (h : ClosureLike c w f f') :
    ValueLike (.function identity f) (.function identity f')
  | class {k k' : ClassValue} (h : ClassLike c w k k') : ValueLike (.class k) (.class k')
  | instance {o o' : Instance} (h : InstanceLike c w o o') :
    ValueLike (.instance o) (.instance o')
  | number (value : Float) : ValueLike (.number value) (.number value)
  | string (value : String) : ValueLike (.string value) (.string value)
  | bool (value : Bool) : ValueLike (.bool value) (.bool value)
  | nil : ValueLike .nil .nil

/-- Statements that end in the same way. -/
inductive FlowLike : Flow → Flow → Prop
  | normal : FlowLike .normal .normal
  | returned {value value' : Value} (h : ValueLike c w value value') :
    FlowLike (.returned value) (.returned value')

/-! ### Machines -/

/-- The same store: frames and instances have the same places, names are exchanged. -/
structure StoreLike (s s' : Store) : Prop where
  size : s.frames.size = w.length
  size' : s'.frames.size = w.length
  first : w[0]? = some (.same, none)
  allowed : ∀ (f : FrameId) (π : Renaming) (outer : Option FrameId),
    w[f.index]? = some (π, outer) → c.renames π
  enclosing : ∀ i : Nat, (s'.frames[i]?).map Frame.enclosing = (s.frames[i]?).map Frame.enclosing
  links : ∀ (f : FrameId) (π : Renaming) (outer : Option FrameId),
    w[f.index]? = some (π, outer) → s.enclosing? f = outer ∧ s'.enclosing? f = outer
  bound : ∀ (f : FrameId) (π : Renaming) (outer : Option FrameId),
    w[f.index]? = some (π, outer) → ∀ name : String,
      Option.Rel (ValueLike c w) (s.local? f name) (s'.local? f (π name))
  fieldsSize : s.fields.size = s'.fields.size
  fields : ∀ o o' : Instance, o'.index = o.index → ∀ name : String,
    Option.Rel (ValueLike c w) (s.field? o name) (s'.field? o' name)

/-- The same machine, up to the store and the hop counts. -/
structure MachineLike (m m' : Machine) : Prop where
  store : StoreLike c w m.store m'.store
  current : m'.current = m.current
  hops : m.hops = c.left
  hops' : m'.hops = c.right
  sink : m'.sink = m.sink
  identities : m'.identities = m.identities
  clock : m'.clock = m.clock

/-- The same reason to stop.  The name that a fault stands at may be an exchanged one. -/
inductive HaltLike : Halt → Halt → Prop
  | fault {site site' : Name} {cause : FaultCause} {π : Renaming} (hπ : c.renames π)
    (hsite : NameLike c π site site') (hoccurs : π = .same ∨ c.occurs site.text) :
    HaltLike (.failure (.fault ⟨site, cause⟩)) (.failure (.fault ⟨site', cause⟩))
  | sink (error : SinkError) : HaltLike (.failure (.sink error)) (.failure (.sink error))
  | tooFewFrames : HaltLike (.breach .tooFewFrames) (.breach .tooFewFrames)
  | unboundAt {name : String} {hops : Nat} {π : Renaming} (hπ : c.renames π) :
    HaltLike (.breach (.unboundAt name hops)) (.breach (.unboundAt (π name) hops))
  | outOfSteps : HaltLike .outOfSteps .outOfSteps

/-! ### Larger worlds -/

section Growth

variable {c : Correspondence} {w later : World}

theorem ClosureLike.mono (hw : w <+: later) {f f' : Closure} (h : ClosureLike c w f f') :
    ClosureLike c later f f' := by
  obtain ⟨hframe, hinit, renamings, hchain, hlike⟩ := h
  exact ⟨hframe, hinit, renamings, hchain.mono hw, hlike⟩

theorem MethodLike.mono (hw : w <+: later) {f f' : Closure} (h : MethodLike c w f f') :
    MethodLike c later f f' := by
  obtain ⟨hframe, hinit, renamings, hchain, hlike⟩ := h
  exact ⟨hframe, hinit, renamings, hchain.mono hw, hlike⟩

theorem option_mono {α : Type} {R S : α → α → Prop} (hRS : ∀ a b, R a b → S a b)
    {a b : Option α} (h : Option.Rel R a b) : Option.Rel S a b := by
  cases h with
  | some h => exact .some (hRS _ _ h)
  | none => exact .none

theorem LayerLike.mono (hw : w <+: later) {layer layer' : ClassLayer}
    (h : LayerLike c w layer layer') : LayerLike c later layer layer' where
  identity := h.identity
  name := h.name
  methods name := option_mono (fun _ _ => MethodLike.mono hw) (h.methods name)

theorem ClassLike.mono (hw : w <+: later) {k k' : ClassValue} (h : ClassLike c w k k') :
    ClassLike c later k k' where
  own := h.own.mono hw
  ancestors := h.ancestors.imp fun _ _ => LayerLike.mono hw

theorem InstanceLike.mono (hw : w <+: later) {o o' : Instance} (h : InstanceLike c w o o') :
    InstanceLike c later o o' where
  index := h.index
  ofClass := h.ofClass.mono hw

theorem ValueLike.mono (hw : w <+: later) {value value' : Value} (h : ValueLike c w value value') :
    ValueLike c later value value' := by
  cases h with
  | native f => exact .native f
  | function h => exact .function (h.mono hw)
  | «class» h => exact .class (h.mono hw)
  | «instance» h => exact .instance (h.mono hw)
  | number value => exact .number value
  | string value => exact .string value
  | bool value => exact .bool value
  | nil => exact .nil

end Growth

/-! ### Looking names up -/

section Lookup

variable {c : Correspondence} {w : World} {s s' : Store} {f : FrameId}
variable {renamings : List Renaming}

theorem StoreLike.frame (h : StoreLike c w s s') (hchain : w.Chain f renamings) :
    ∃ outer, w[f.index]? = some (renamings.headD .same, outer) := by
  cases hchain with
  | globals => exact ⟨none, h.first⟩
  | inner hf _ => exact ⟨_, hf⟩

theorem StoreLike.lt_size (h : StoreLike c w s s') (hchain : w.Chain f renamings) :
    f.index < s.frames.size := by
  obtain ⟨outer, houter⟩ := h.frame hchain
  rw [h.size]
  exact (List.getElem?_eq_some_iff.mp houter).1

theorem StoreLike.size_eq (h : StoreLike c w s s') : s'.frames.size = s.frames.size := by
  rw [h.size, h.size']

/-- Around every frame, names are exchanged in ways that are allowed. -/
theorem StoreLike.renames_getD (h : StoreLike c w s s') (hchain : w.Chain f renamings)
    (hops : Nat) : c.renames (renamings.getD hops .same) := by
  induction hchain generalizing hops with
  | globals => exact c.renames_same
  | inner hf _ ih =>
    rcases hops with _ | hops
    · exact h.allowed _ _ _ hf
    · exact ih hops

/-- Hop counts lead to the same frame, whose names are exchanged as in the scope that the hop
    count stands for. -/
theorem StoreLike.ancestor? (h : StoreLike c w s s') (hops : Nat)
    (hchain : w.Chain f renamings) :
    s'.ancestor? f hops = s.ancestor? f hops
      ∧ ∀ found, s.ancestor? f hops = some found →
        ∃ outer, w[found.index]? = some (renamings.getD hops .same, outer) := by
  induction hops generalizing f renamings with
  | zero =>
    refine ⟨rfl, fun found hfound => ?_⟩
    cases hfound
    obtain ⟨outer, houter⟩ := h.frame hchain
    refine ⟨outer, ?_⟩
    rw [houter]
    rcases renamings with _ | ⟨π, renamings⟩ <;> rfl
  | succ hops ih =>
    cases hchain with
    | globals =>
      obtain ⟨hleft, hright⟩ := h.links Store.globals _ _ h.first
      simp [Store.ancestor?, hleft, hright]
    | inner hf houter =>
      obtain ⟨hleft, hright⟩ := h.links f _ _ hf
      obtain ⟨hsame, hfound⟩ := ih houter
      simp only [Store.ancestor?, hleft, hright]
      exact ⟨hsame, fun found h => by simpa using hfound found h⟩

end Lookup

/-! ### Fields

By whatever measure the values of fields are alike, they stay so when both sides change. -/

section Fields

variable {s s' : Store} {R : Value → Value → Prop}

theorem rel_newInstance (hsize : s.fields.size = s'.fields.size)
    (h : ∀ o o' : Instance, o'.index = o.index → ∀ name : String,
      Option.Rel R (s.field? o name) (s'.field? o' name)) (k k' : ClassValue) :
    ∀ o o' : Instance, o'.index = o.index → ∀ name : String,
      Option.Rel R ((s.newInstance k).2.field? o name) ((s'.newInstance k').2.field? o' name) := by
  intro o o' ho name
  have hold := h o o' ho name
  simp only [Store.field?, Store.newInstance, Array.getElem?_push, ho, ← hsize] at hold ⊢
  by_cases hindex : o.index = s.fields.size
  · simp only [hindex, if_true]
    simp only [Std.ExtTreeMap.getElem?_empty]
    exact .none
  · simp only [hindex, if_false]
    exact hold

theorem rel_setField (hsize : s.fields.size = s'.fields.size)
    (h : ∀ o o' : Instance, o'.index = o.index → ∀ name : String,
      Option.Rel R (s.field? o name) (s'.field? o' name)) {o o' : Instance}
    (ho : o'.index = o.index) (name : String) {value value' : Value} (hvalue : R value value') :
    ∀ p p' : Instance, p'.index = p.index → ∀ other : String,
      Option.Rel R ((s.setField o name value).field? p other)
        ((s'.setField o' name value').field? p' other) := by
  intro p p' hp other
  have hold := h p p' hp other
  simp only [Store.field?, Store.setField, Array.getElem?_modify, hp, ho] at hold ⊢
  by_cases hindex : o.index = p.index
  · rw [if_pos hindex, if_pos hindex]
    rcases hfields : s.fields[p.index]? with _ | fields
    · have hnone : s'.fields[p.index]? = none := by
        rw [Array.getElem?_eq_none_iff] at hfields ⊢
        omega
      rw [hnone]
      exact .none
    · obtain ⟨fields', hfields'⟩ : ∃ fields', s'.fields[p.index]? = some fields' := by
        obtain ⟨hbound, -⟩ := Array.getElem?_eq_some_iff.mp hfields
        exact ⟨_, Array.getElem?_eq_getElem (hsize ▸ hbound)⟩
      rw [hfields, hfields'] at hold
      rw [hfields']
      simp only [Option.map_some, Std.ExtTreeMap.getElem?_insert]
      by_cases hname : name = other
      · subst hname
        rw [if_pos (by simp), if_pos (by simp)]
        exact .some hvalue
      · have hne : ¬ compare name other = .eq := by simpa using hname
        simp only [hne, if_false]
        exact hold
  · rw [if_neg hindex, if_neg hindex]
    exact hold

end Fields

/-! ### Changing stores -/

section Changes

variable {c : Correspondence} {w : World} {s s' : Store} {f : FrameId} {π : Renaming}
variable {outer : Option FrameId}

theorem StoreLike.define (h : StoreLike c w s s') (hf : w[f.index]? = some (π, outer))
    (name : String) {value value' : Value} (hvalue : ValueLike c w value value') :
    StoreLike c w (s.define f name value) (s'.define f (π name) value') where
  size := by rw [Store.size_define, h.size]
  size' := by rw [Store.size_define, h.size']
  first := h.first
  allowed := h.allowed
  enclosing i := by rw [Store.enclosing_define, Store.enclosing_define, h.enclosing]
  links g ρ around hg := by
    rw [Store.enclosing?_define, Store.enclosing?_define]
    exact h.links g ρ around hg
  bound g ρ around hg other := by
    have hlt : f.index < s.frames.size := by
      rw [h.size]
      exact (List.getElem?_eq_some_iff.mp hf).1
    have hlt' : f.index < s'.frames.size := by rw [h.size_eq]; exact hlt
    by_cases hsame : g = f
    · subst hsame
      have hρ : ρ = π := by
        rw [hf] at hg
        cases hg
        rfl
      subst hρ
      by_cases hname : other = name
      · subst hname
        rw [Store.local?_define_self hlt, Store.local?_define_self hlt']
        exact .some hvalue
      · have hname' : ρ other ≠ ρ name := fun heq => hname (ρ.injective heq)
        rw [Store.local?_define_of_ne (Or.inr hname), Store.local?_define_of_ne (Or.inr hname')]
        exact h.bound g ρ around hg other
    · rw [Store.local?_define_of_ne (Or.inl hsame), Store.local?_define_of_ne (Or.inl hsame)]
      exact h.bound g ρ around hg other
  fieldsSize := h.fieldsSize
  fields := h.fields

theorem StoreLike.child (h : StoreLike c w s s') (hf : f.index < s.frames.size) (hπ : c.renames π) :
    StoreLike c (w.withChild π f) (s.child f).2 (s'.child f).2 where
  size := by rw [Store.size_child, h.size, Labels.length_withChild]
  size' := by rw [Store.size_child, h.size', Labels.length_withChild]
  first := by
    rw [Labels.getElem?_withChild_of_lt _ _ (List.getElem?_eq_some_iff.mp h.first).1, h.first]
  allowed g ρ around hg := by
    rcases Labels.eq_of_getElem?_withChild hg with ⟨-, hold⟩ | ⟨-, rfl, -⟩
    · exact h.allowed g ρ around hold
    · exact hπ
  enclosing i := by
    have hold := h.enclosing i
    simp only [Store.child, Array.getElem?_push, h.size_eq]
    by_cases hi : i = s.frames.size
    · rw [if_pos hi, if_pos hi]
    · rw [if_neg hi, if_neg hi]
      exact hold
  links g ρ around hg := by
    rcases Labels.eq_of_getElem?_withChild hg with ⟨hlt, hold⟩ | ⟨hnew, -, rfl⟩
    · rw [← h.size] at hlt
      rw [Store.enclosing?_child_of_lt hlt, Store.enclosing?_child_of_lt (h.size_eq ▸ hlt)]
      exact h.links g ρ around hold
    · have hg : g = (s.child f).1 := FrameId.ext (by rw [hnew, Store.child_index, h.size])
      have hg' : g = (s'.child f).1 := FrameId.ext (by rw [hnew, Store.child_index, h.size'])
      constructor
      · rw [hg, Store.enclosing?_child_self hf]
      · rw [hg', Store.enclosing?_child_self (h.size_eq ▸ hf)]
  bound g ρ around hg name := by
    rw [Store.local?_child, Store.local?_child]
    rcases Labels.eq_of_getElem?_withChild hg with ⟨-, hold⟩ | ⟨hnew, -, -⟩
    · exact option_mono (fun _ _ => ValueLike.mono (Labels.prefix_withChild w π f))
        (h.bound g ρ around hold name)
    · rw [Store.local?_eq_none_of_size_le (Nat.le_of_eq (by rw [h.size, hnew])),
        Store.local?_eq_none_of_size_le (Nat.le_of_eq (by rw [h.size', hnew]))]
      exact .none
  fieldsSize := h.fieldsSize
  fields o o' ho name := option_mono (fun _ _ => ValueLike.mono (Labels.prefix_withChild w π f))
    (h.fields o o' ho name)

theorem StoreLike.newInstance (h : StoreLike c w s s') {k k' : ClassValue}
    (hk : ClassLike c w k k') :
    StoreLike c w (s.newInstance k).2 (s'.newInstance k').2
      ∧ InstanceLike c w (s.newInstance k).1 (s'.newInstance k').1 := by
  refine ⟨{ h with fieldsSize := ?_, fields := ?_ }, ⟨h.fieldsSize.symm, hk⟩⟩
  · simp [Store.newInstance, h.fieldsSize]
  · exact rel_newInstance h.fieldsSize h.fields k k'

theorem StoreLike.setField (h : StoreLike c w s s') {o o' : Instance} (ho : o'.index = o.index)
    (name : String) {value value' : Value} (hvalue : ValueLike c w value value') :
    StoreLike c w (s.setField o name value) (s'.setField o' name value') :=
  { h with
    fieldsSize := by simp [Store.setField, h.fieldsSize]
    fields := rel_setField h.fieldsSize h.fields ho name hvalue }

end Changes

end Correspondence

end Treewalk
