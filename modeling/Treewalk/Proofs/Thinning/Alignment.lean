import Treewalk.Proofs.Binding.Thinning
import Treewalk.Proofs.Evaluation.SoundRuns
import Treewalk.Proofs.Simulation.Matching

/-!
# Machines with and without some frames

**Two machines are aligned when the second has all frames of the first but some that bind nothing.**
Each frame of the first is stood for by a frame of the second: one that is kept by its counterpart, and
one that is left out by whatever stands for the frame around it.  Kept frames bind the same values.

Functions on either side have their own references, which are placed in the scopes that the frames of
that side stand for.
-/

namespace Treewalk

/-! ### Frames -/

/-- For every frame of the first machine: whether it is left out of the second, and the frame of the
    second that stands for it. -/
abbrev Pairing := Labels (Bool × FrameId)

namespace Pairing

variable {w later : Pairing} {f g : FrameId} {L R : List Scope}

/-- The frame of the second machine stands for that of the first. -/
def Stands (w : Pairing) (f g : FrameId) : Prop :=
  ∃ mark outer, w[f.index]? = some ((mark, g), outer)

/-- The frame is kept, and this is its counterpart. -/
def Kept (w : Pairing) (f g : FrameId) : Prop :=
  ∃ outer, w[f.index]? = some ((false, g), outer)

/-- The frame stands for the first scopes.  The second are those of them that are kept. -/
def Around (w : Pairing) (f : FrameId) (L R : List Scope) : Prop :=
  ∃ labels, w.Chain f labels ∧ Thins (labels.map Prod.fst) L R

theorem Kept.stands (h : w.Kept f g) : w.Stands f g := by
  obtain ⟨outer, h⟩ := h
  exact ⟨false, outer, h⟩

theorem Stands.mono (hw : w <+: later) (h : w.Stands f g) : later.Stands f g := by
  obtain ⟨mark, outer, h⟩ := h
  exact ⟨mark, outer, Labels.getElem?_mono hw h⟩

theorem Kept.mono (hw : w <+: later) (h : w.Kept f g) : later.Kept f g := by
  obtain ⟨outer, h⟩ := h
  exact ⟨outer, Labels.getElem?_mono hw h⟩

theorem Around.mono (hw : w <+: later) (h : w.Around f L R) : later.Around f L R := by
  obtain ⟨labels, hchain, hthins⟩ := h
  exact ⟨labels, hchain.mono hw, hthins⟩

theorem Stands.eq (h : w.Stands f g) {g' : FrameId} (h' : w.Stands f g') : g = g' := by
  obtain ⟨_, _, h⟩ := h
  obtain ⟨_, _, h'⟩ := h'
  rw [h] at h'
  cases h'
  rfl

/-- A kept frame is not marked in the scopes around it. -/
theorem Kept.head? (h : w.Kept f g) {labels : List (Bool × FrameId)} (hchain : w.Chain f labels) :
    (labels.map Prod.fst).head? ≠ some true := by
  obtain ⟨outer, h⟩ := h
  cases hchain with
  | globals => exact nofun
  | inner hf _ =>
    rw [h] at hf
    cases hf
    exact nofun

theorem Around.putName (h : w.Around f L R) (hkept : w.Kept f g) (text : String)
    (standing : Standing) : w.Around f (putName text standing L) (putName text standing R) := by
  obtain ⟨labels, hchain, hthins⟩ := h
  exact ⟨labels, hchain, hthins.putName (hkept.head? hchain) text standing⟩

theorem Around.scopesAfter (h : w.Around f L R) {s : Stmt}
    (hkept : s.isDeclaration = true → w.Kept f g) (σ : Shift) :
    w.Around f (s.scopesAfter L) ((s.move σ).scopesAfter R) := by
  obtain ⟨labels, hchain, hthins⟩ := h
  exact ⟨labels, hchain, hthins.scopesAfter (fun hs => (hkept hs).head? hchain) σ⟩

/-- A frame that is made on both sides. -/
theorem Around.keep (h : w.Around f L R) (g : FrameId) (scope : Scope) :
    Around (w.withChild (false, g) f) ⟨w.length⟩ (scope :: L) (scope :: R) := by
  obtain ⟨labels, hchain, hthins⟩ := h
  exact ⟨_, hchain.withChild (false, g), .keep scope hthins⟩

/-- A frame that is made on the first side only. -/
theorem Around.drop (h : w.Around f L R) (g : FrameId) :
    Around (w.withChild (true, g) f) ⟨w.length⟩ (∅ :: L) R := by
  obtain ⟨labels, hchain, hthins⟩ := h
  exact ⟨_, hchain.withChild (true, g), .drop hthins⟩

theorem stands_withChild (w : Pairing) (mark : Bool) (f g : FrameId) :
    Stands (w.withChild (mark, g) f) ⟨w.length⟩ g :=
  ⟨mark, some f, w.getElem?_withChild_self (mark, g) f⟩

theorem kept_withChild (w : Pairing) (f g : FrameId) :
    Kept (w.withChild (false, g) f) ⟨w.length⟩ g :=
  ⟨some f, w.getElem?_withChild_self (false, g) f⟩

theorem Stands.of_withChild {mark : Bool} {around target : FrameId}
    (h : Stands (w.withChild (mark, target) around) f g) : w.Stands f g ∨ g = target := by
  obtain ⟨_, outer, h⟩ := h
  rcases Labels.eq_of_getElem?_withChild h with ⟨-, hold⟩ | ⟨-, hlabel, -⟩
  · exact Or.inl ⟨_, outer, hold⟩
  · cases hlabel
    exact Or.inr rfl

theorem Kept.of_withChild {mark : Bool} {around target : FrameId}
    (h : Kept (w.withChild (mark, target) around) f g) :
    w.Kept f g ∨ (mark = false ∧ f = ⟨w.length⟩ ∧ g = target) := by
  obtain ⟨outer, h⟩ := h
  rcases Labels.eq_of_getElem?_withChild h with ⟨-, hold⟩ | ⟨hindex, hlabel, -⟩
  · exact Or.inl ⟨outer, hold⟩
  · cases hlabel
    exact Or.inr ⟨rfl, FrameId.ext hindex, rfl⟩

end Pairing

/-- The tables of the two runs. -/
structure Tables where
  left : HopTable
  right : HopTable

namespace Tables

variable (c : Tables) (w : Pairing)

/-! ### Values -/

/-- The same function with other references.  On either side they are in their places. -/
structure FunctionLike (L R : List Scope) (f f' : FunctionDecl) : Prop where
  moved : ∃ ι : Nat → Nat, f' = f.move (.ofIds ι)
  left : f.Placed c.left (fun _ => True) L
  right : f'.Placed c.right (fun _ => True) R

/-- The same function in the same frame, which is kept. -/
structure ClosureLike (f f' : Closure) : Prop where
  frame : w.Kept f.frame f'.frame
  isInitializer : f'.isInitializer = f.isInitializer
  declaration : ∃ L R, w.Around f.frame L R ∧ FunctionLike c L R f.declaration f'.declaration

/-- A method that is not bound yet: the frame for `this` is still missing. -/
structure MethodLike (f f' : Closure) : Prop where
  frame : w.Kept f.frame f'.frame
  isInitializer : f'.isInitializer = f.isInitializer
  declaration : ∃ L R, w.Around f.frame L R
    ∧ FunctionLike c (thisScope :: L) (thisScope :: R) f.declaration f'.declaration

/-- The same layer of a class. -/
structure LayerLike (layer layer' : ClassLayer) : Prop where
  identity : layer'.identity = layer.identity
  name : layer'.name = layer.name
  methods : ∀ name : String, Option.Rel (MethodLike c w) layer.methods[name]? layer'.methods[name]?

/-- The same class. -/
structure ClassLike (k k' : ClassValue) : Prop where
  own : LayerLike c w k.own k'.own
  ancestors : List.Forall₂ (LayerLike c w) k.ancestors k'.ancestors

/-- The same instance. -/
structure InstanceLike (o o' : Instance) : Prop where
  index : o'.index = o.index
  ofClass : ClassLike c w o.ofClass o'.ofClass

/-- The same value. -/
inductive ValueLike : Value → Value → Prop
  | native (f : Native) : ValueLike (.native f) (.native f)
  | function {identity : Nat} {f f' : Closure} (h : ClosureLike c w f f') :
    ValueLike (.function identity f) (.function identity f')
  | class {k k' : ClassValue} (h : ClassLike c w k k') : ValueLike (.class k) (.class k')
  | instance {o o' : Instance} (h : InstanceLike c w o o') :
    ValueLike (.instance o) (.instance o')
  | number (value : Float) : ValueLike (.number value) (.number value)
  | string (value : String) : ValueLike (.string value) (.string value)
  | bool (value : Bool) : ValueLike (.bool value) (.bool value)
  | nil : ValueLike .nil .nil

/-- Statements that end in the same way. -/
inductive FlowLike : Flow → Flow → Prop
  | normal : FlowLike .normal .normal
  | returned {value value' : Value} (h : ValueLike c w value value') :
    FlowLike (.returned value) (.returned value')

/-- The same reason to stop.  Only a breach tells about hop counts. -/
inductive HaltLike : Halt → Halt → Prop
  | same (halt : Halt) : HaltLike halt halt
  | breach (b b' : Breach) : HaltLike (.breach b) (.breach b')

/-! ### Machines -/

/-- The same store, but for the frames that are left out. -/
structure StoreLike (s s' : Store) : Prop where
  size : s.frames.size = w.length
  first : w[0]? = some ((false, Store.globals), none)
  kept : ∀ (f g : FrameId) (outer : Option FrameId), w[f.index]? = some ((false, g), outer) →
    s.enclosing? f = outer ∧ Option.Rel w.Stands outer (s'.enclosing? g)
  dropped : ∀ (f g : FrameId) (outer : Option FrameId), w[f.index]? = some ((true, g), outer) →
    s.enclosing? f = outer ∧ ∃ around, outer = some around ∧ w.Stands around g
  within : ∀ f g : FrameId, w.Stands f g → g.index < s'.frames.size
  injective : ∀ f f' g : FrameId, w.Kept f g → w.Kept f' g → f = f'
  bound : ∀ f g : FrameId, w.Kept f g → ∀ name : String,
    Option.Rel (ValueLike c w) (s.local? f name) (s'.local? g name)
  fieldsSize : s.fields.size = s'.fields.size
  fields : ∀ o o' : Instance, o'.index = o.index → ∀ name : String,
    Option.Rel (ValueLike c w) (s.field? o name) (s'.field? o' name)

/-- The same machine, but for the frames that are left out and the hop counts. -/
structure MachineLike (m m' : Machine) : Prop where
  store : StoreLike c w m.store m'.store
  current : w.Stands m.current m'.current
  hops : m.hops = c.left
  hops' : m'.hops = c.right
  sink : m'.sink = m.sink
  identities : m'.identities = m.identities
  clock : m'.clock = m.clock

/-! ### More frames -/

section Growth

variable {c : Tables} {w later : Pairing}

theorem ClosureLike.mono (hw : w <+: later) {f f' : Closure} (h : ClosureLike c w f f') :
    ClosureLike c later f f' := by
  obtain ⟨hframe, hinit, L, R, haround, hlike⟩ := h
  exact ⟨hframe.mono hw, hinit, L, R, haround.mono hw, hlike⟩

theorem MethodLike.mono (hw : w <+: later) {f f' : Closure} (h : MethodLike c w f f') :
    MethodLike c later f f' := by
  obtain ⟨hframe, hinit, L, R, haround, hlike⟩ := h
  exact ⟨hframe.mono hw, hinit, L, R, haround.mono hw, hlike⟩

theorem LayerLike.mono (hw : w <+: later) {layer layer' : ClassLayer}
    (h : LayerLike c w layer layer') : LayerLike c later layer layer' where
  identity := h.identity
  name := h.name
  methods name := Correspondence.option_mono (fun _ _ => MethodLike.mono hw) (h.methods name)

theorem ClassLike.mono (hw : w <+: later) {k k' : ClassValue} (h : ClassLike c w k k') :
    ClassLike c later k k' where
  own := h.own.mono hw
  ancestors := h.ancestors.imp fun _ _ => LayerLike.mono hw

theorem InstanceLike.mono (hw : w <+: later) {o o' : Instance} (h : InstanceLike c w o o') :
    InstanceLike c later o o' where
  index := h.index
  ofClass := h.ofClass.mono hw

theorem ValueLike.mono (hw : w <+: later) {value value' : Value} (h : ValueLike c w value value') :
    ValueLike c later value value' := by
  cases h with
  | native f => exact .native f
  | function h => exact .function (h.mono hw)
  | «class» h => exact .class (h.mono hw)
  | «instance» h => exact .instance (h.mono hw)
  | number value => exact .number value
  | string value => exact .string value
  | bool value => exact .bool value
  | nil => exact .nil

/-- A value without parts is like itself. -/
theorem ValueLike.of_plain {value : Value} (h : value.Plain) : ValueLike c w value value := by
  cases value with
  | number value => exact .number value
  | string value => exact .string value
  | bool value => exact .bool value
  | _ => exact h.elim

end Growth

/-! ### Looking names up -/

section Lookup

variable {c : Tables} {w : Pairing} {s s' : Store} {f g : FrameId}

theorem StoreLike.globals (h : StoreLike c w s s') : w.Kept Store.globals Store.globals :=
  ⟨none, h.first⟩

theorem StoreLike.lt_size (h : StoreLike c w s s') (hf : w.Stands f g) :
    f.index < s.frames.size := by
  obtain ⟨_, _, hf⟩ := hf
  rw [h.size]
  exact (List.getElem?_eq_some_iff.mp hf).1

/-- Hop counts lead from frames that stand for each other to frames that are counterparts, if the
    first does not lead to a frame that is left out. -/
theorem StoreLike.ancestor? (h : StoreLike c w s s') {labels : List (Bool × FrameId)} {hops : Nat}
    (hchain : w.Chain f labels) (hf : w.Stands f g)
    (hmark : (labels.map Prod.fst)[hops]? = some false) :
    ∃ found found', s.ancestor? f hops = some found
      ∧ s'.ancestor? g (thinned (labels.map Prod.fst) hops) = some found' ∧ w.Kept found found' := by
  induction hops generalizing f g labels with
  | zero =>
    refine ⟨f, g, rfl, ?_, ?_⟩
    · rw [thinned_zero]
      rfl
    · cases hchain with
      | globals => cases hmark
      | @inner _ _ label _ hlabel _ =>
        obtain ⟨mark, target⟩ := label
        cases hmark
        have hkept : w.Kept f target := ⟨_, hlabel⟩
        rwa [hf.eq hkept.stands]
  | succ hops ih =>
    cases hchain with
    | globals => cases hmark
    | @inner _ outer label labels hlabel houter =>
      obtain ⟨mark, target⟩ := label
      have htarget : g = target := hf.eq ⟨mark, _, hlabel⟩
      subst htarget
      have hmark' : (labels.map Prod.fst)[hops]? = some false := by simpa using hmark
      cases mark with
      | false =>
        obtain ⟨hleft, hright⟩ := h.kept f g _ hlabel
        generalize hout : s'.enclosing? g = around at hright
        cases hright with
        | @some _ g' hstands =>
          obtain ⟨found, found', hfound, hfound', hkept⟩ := ih houter hstands hmark'
          refine ⟨found, found', ?_, ?_, hkept⟩
          · rw [Store.ancestor?, hleft]
            exact hfound
          · show s'.ancestor? g (thinned (labels.map Prod.fst) hops + 1) = some found'
            rw [Store.ancestor?, hout]
            exact hfound'
      | true =>
        obtain ⟨hleft, around, haround, hstands⟩ := h.dropped f g _ hlabel
        cases haround
        obtain ⟨found, found', hfound, hfound', hkept⟩ := ih houter hstands hmark'
        refine ⟨found, found', ?_, hfound', hkept⟩
        rw [Store.ancestor?, hleft]
        exact hfound

end Lookup

/-! ### Changing stores -/

section Changes

variable {c : Tables} {w later : Pairing} {s s' : Store} {f g : FrameId}

theorem StoreLike.define (h : StoreLike c w s s') (hf : w.Kept f g) (name : String)
    {value value' : Value} (hvalue : ValueLike c w value value') :
    StoreLike c w (s.define f name value) (s'.define g name value') where
  size := by rw [Store.size_define, h.size]
  first := h.first
  kept f₁ g₁ outer hlabel := by
    rw [Store.enclosing?_define, Store.enclosing?_define]
    exact h.kept f₁ g₁ outer hlabel
  dropped f₁ g₁ outer hlabel := by
    rw [Store.enclosing?_define]
    exact h.dropped f₁ g₁ outer hlabel
  within f₁ g₁ h₁ := by
    rw [Store.size_define]
    exact h.within f₁ g₁ h₁
  injective := h.injective
  bound f₁ g₁ h₁ other := by
    by_cases hsame : f₁ = f
    · subst hsame
      have hg : g₁ = g := h₁.stands.eq hf.stands
      subst hg
      by_cases hname : other = name
      · subst hname
        rw [Store.local?_define_self (h.lt_size hf.stands),
          Store.local?_define_self (h.within _ _ hf.stands)]
        exact .some hvalue
      · rw [Store.local?_define_of_ne (Or.inr hname), Store.local?_define_of_ne (Or.inr hname)]
        exact h.bound f₁ g₁ h₁ other
    · have hother : g₁ ≠ g := fun heq => hsame (h.injective f₁ f g (heq ▸ h₁) hf)
      rw [Store.local?_define_of_ne (Or.inl hsame), Store.local?_define_of_ne (Or.inl hother)]
      exact h.bound f₁ g₁ h₁ other
  fieldsSize := h.fieldsSize
  fields := h.fields

/-- An old frame is in the same frame as before, beside a new one. -/
theorem StoreLike.enclosing?_child (h : StoreLike c w s s') {around : FrameId} {i : FrameId}
    (hi : i.index < w.length) : (s.child around).2.enclosing? i = s.enclosing? i :=
  Store.enclosing?_child_of_lt (h.size ▸ hi) around

/-- The new frame is the one that the new label is for. -/
theorem StoreLike.eq_child (h : StoreLike c w s s') {i : FrameId} (hindex : i.index = w.length)
    (around : FrameId) : i = (s.child around).1 :=
  FrameId.ext (by rw [hindex, Store.child_index, h.size])

/-- An old frame that is left out stays so. -/
theorem StoreLike.dropped_child (h : StoreLike c w s s') (hw : w <+: later) (around : FrameId)
    {i target : FrameId} {outer : Option FrameId} (hi : i.index < w.length)
    (hold : w[i.index]? = some ((true, target), outer)) :
    (s.child around).2.enclosing? i = outer
      ∧ ∃ inner, outer = some inner ∧ later.Stands inner target := by
  obtain ⟨hleft, inner, hinner, hstands⟩ := h.dropped i target outer hold
  rw [h.enclosing?_child hi]
  exact ⟨hleft, inner, hinner, hstands.mono hw⟩

/-- What stood for the frame around still does. -/
theorem rel_stands_mono (hw : w <+: later) {outer outer' : Option FrameId}
    (h : Option.Rel w.Stands outer outer') : Option.Rel later.Stands outer outer' :=
  Correspondence.option_mono (fun _ _ => Pairing.Stands.mono hw) h

/-- Values that were alike still are. -/
theorem rel_value_mono (hw : w <+: later) {value value' : Option Value}
    (h : Option.Rel (ValueLike c w) value value') : Option.Rel (ValueLike c later) value value' :=
  Correspondence.option_mono (fun _ _ => ValueLike.mono hw) h

/-- A frame that is made on both sides. -/
theorem StoreLike.child (h : StoreLike c w s s') (hf : w.Stands f g) :
    StoreLike c (w.withChild (false, ⟨s'.frames.size⟩) f) (s.child f).2 (s'.child g).2 where
  size := by rw [Store.size_child, h.size, Labels.length_withChild]
  first := Labels.getElem?_mono (w.prefix_withChild _ f) h.first
  kept f₁ g₁ outer hlabel := by
    have hprefix := w.prefix_withChild (false, (⟨s'.frames.size⟩ : FrameId)) f
    rcases Labels.eq_of_getElem?_withChild hlabel with ⟨hlt, hold⟩ | ⟨hindex, htarget, rfl⟩
    · obtain ⟨hleft, hright⟩ := h.kept f₁ g₁ outer hold
      rw [h.enclosing?_child hlt, Store.enclosing?_child_of_lt (h.within f₁ g₁ ⟨_, _, hold⟩)]
      exact ⟨hleft, rel_stands_mono hprefix hright⟩
    · obtain rfl := h.eq_child hindex f
      cases htarget
      rw [Store.enclosing?_child_self (h.lt_size hf)]
      refine ⟨rfl, ?_⟩
      have hnew := Store.enclosing?_child_self (h.within f g hf)
      rw [show (⟨s'.frames.size⟩ : FrameId) = (s'.child g).1 from rfl, hnew]
      exact .some (hf.mono hprefix)
  dropped f₁ g₁ outer hlabel := by
    rcases Labels.eq_of_getElem?_withChild hlabel with ⟨hlt, hold⟩ | ⟨-, htarget, -⟩
    · exact h.dropped_child (w.prefix_withChild _ f) f hlt hold
    · cases htarget
  within f₁ g₁ h₁ := by
    rw [Store.size_child]
    rcases h₁.of_withChild with hold | rfl
    · exact Nat.lt_succ_of_lt (h.within f₁ g₁ hold)
    · exact Nat.lt_succ_self _
  injective f₁ f₂ g₁ h₁ h₂ := by
    rcases h₁.of_withChild with hold₁ | ⟨-, rfl, rfl⟩
    · rcases h₂.of_withChild with hold₂ | ⟨-, rfl, rfl⟩
      · exact h.injective f₁ f₂ g₁ hold₁ hold₂
      · exact absurd (h.within _ _ hold₁.stands) (Nat.lt_irrefl _)
    · rcases h₂.of_withChild with hold₂ | ⟨-, rfl, -⟩
      · exact absurd (h.within _ _ hold₂.stands) (Nat.lt_irrefl _)
      · rfl
  bound f₁ g₁ h₁ name := by
    rw [Store.local?_child, Store.local?_child]
    rcases h₁.of_withChild with hold | ⟨-, rfl, rfl⟩
    · exact rel_value_mono (w.prefix_withChild _ f) (h.bound f₁ g₁ hold name)
    · rw [Store.local?_eq_none_of_size_le (Nat.le_of_eq h.size),
        Store.local?_eq_none_of_size_le (show s'.frames.size ≤ (⟨s'.frames.size⟩ : FrameId).index
          from Nat.le_refl _)]
      exact .none
  fieldsSize := h.fieldsSize
  fields o o' ho name := rel_value_mono (w.prefix_withChild _ f) (h.fields o o' ho name)

/-- A frame that is made on the first side only. -/
theorem StoreLike.spareChild (h : StoreLike c w s s') (hf : w.Stands f g) :
    StoreLike c (w.withChild (true, g) f) (s.child f).2 s' where
  size := by rw [Store.size_child, h.size, Labels.length_withChild]
  first := Labels.getElem?_mono (w.prefix_withChild _ f) h.first
  kept f₁ g₁ outer hlabel := by
    rcases Labels.eq_of_getElem?_withChild hlabel with ⟨hlt, hold⟩ | ⟨-, htarget, -⟩
    · obtain ⟨hleft, hright⟩ := h.kept f₁ g₁ outer hold
      rw [h.enclosing?_child hlt]
      exact ⟨hleft, rel_stands_mono (w.prefix_withChild _ f) hright⟩
    · cases htarget
  dropped f₁ g₁ outer hlabel := by
    have hprefix := w.prefix_withChild (true, g) f
    rcases Labels.eq_of_getElem?_withChild hlabel with ⟨hlt, hold⟩ | ⟨hindex, htarget, rfl⟩
    · exact h.dropped_child hprefix f hlt hold
    · obtain rfl := h.eq_child hindex f
      cases htarget
      rw [Store.enclosing?_child_self (h.lt_size hf)]
      exact ⟨rfl, f, rfl, hf.mono hprefix⟩
  within f₁ g₁ h₁ := by
    rcases h₁.of_withChild with hold | rfl
    · exact h.within f₁ g₁ hold
    · exact h.within f g₁ hf
  injective f₁ f₂ g₁ h₁ h₂ := by
    rcases h₁.of_withChild with hold₁ | ⟨hmark, -⟩
    · rcases h₂.of_withChild with hold₂ | ⟨hmark, -⟩
      · exact h.injective f₁ f₂ g₁ hold₁ hold₂
      · cases hmark
    · cases hmark
  bound f₁ g₁ h₁ name := by
    rw [Store.local?_child]
    rcases h₁.of_withChild with hold | ⟨hmark, -⟩
    · exact rel_value_mono (w.prefix_withChild _ f) (h.bound f₁ g₁ hold name)
    · cases hmark
  fieldsSize := h.fieldsSize
  fields o o' ho name := rel_value_mono (w.prefix_withChild _ f) (h.fields o o' ho name)

theorem StoreLike.newInstance (h : StoreLike c w s s') {k k' : ClassValue}
    (hk : ClassLike c w k k') :
    StoreLike c w (s.newInstance k).2 (s'.newInstance k').2
      ∧ InstanceLike c w (s.newInstance k).1 (s'.newInstance k').1 := by
  refine ⟨{ h with fieldsSize := ?_, fields := ?_ }, ⟨h.fieldsSize.symm, hk⟩⟩
  · simp [Store.newInstance, h.fieldsSize]
  · exact Correspondence.rel_newInstance h.fieldsSize h.fields k k'

theorem StoreLike.setField (h : StoreLike c w s s') {o o' : Instance} (ho : o'.index = o.index)
    (name : String) {value value' : Value} (hvalue : ValueLike c w value value') :
    StoreLike c w (s.setField o name value) (s'.setField o' name value') :=
  { h with
    fieldsSize := by simp [Store.setField, h.fieldsSize]
    fields := Correspondence.rel_setField h.fieldsSize h.fields ho name hvalue }

end Changes

end Tables

end Treewalk
