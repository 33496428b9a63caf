import Treewalk.Proofs.Binding.Situation
import Treewalk.Proofs.Evaluation.Lineage

/-!
# Frames have the shapes of scopes

**Every frame but the global one is that of a block, a function call, a bound method or a class with a
superclass, and it never binds anything that this does not account for.**  A chart records the shape
of each frame.  Functions were declared in frames whose shapes are those of the scopes around their
declaration, so the chart says of every place that runs which names the frames around it may bind.

A frame for `super` belongs to one execution of a class declaration and binds the superclass that
was found there, and classes have the lineage that the executed declarations give them.
-/

namespace Treewalk

open Run

/-- The shape of each frame, and the frame around it. -/
abbrev Chart := Labels Shape

/-- What is given about a run: what is given about the code, and what happens. -/
structure Scene extends Setting where
  happened : Moment → Prop

/-- In this frame, a name may be bound to a value. -/
def Shape.Admits (happened : Moment → Prop) (f : FrameId) : Shape → String → Value → Prop
  | .names texts, name, _ => name ∈ texts
  | .this _, name, value => name = "this" ∧ ∃ o, value = .instance o
  | .super declaration, name, value => name = "super" ∧ ∃ parent m,
    value = .class parent ∧ Executed happened declaration m
      ∧ superclassOf declaration.superclass m = .ok (some parent) m
      ∧ f = declaration.methodFrame m

theorem Shape.Admits.declares {happened : Moment → Prop} {f : FrameId} {shape : Shape} {name : String}
    {value : Value} (h : shape.Admits happened f name value) : shape.Declares name := by
  cases shape with
  | names texts => exact h
  | this declaration => exact h.1
  | super declaration => exact h.1

section Values

variable (c : Scene) (chart : Chart) (s : Store)

/-- The frame stands for these scopes of the source. -/
structure StandsFor (f : FrameId) (scopes : List Scope) (shapes : List Shape) : Prop where
  chain : chart.Chain f shapes
  fits : s.Fits f scopes
  shaped : Shaped c.distinct scopes shapes

/-- The frame of a function stands for the scopes around its declaration. -/
def Closure.Charted (f : Closure) : Prop :=
  ∃ scopes shapes, StandsFor c chart s f.frame scopes shapes ∧ AllDefined scopes
    ∧ f.declaration.Situated c.toSetting scopes shapes
    ∧ (f.isInitializer = true → Defines scopes 0 "this")

/-- A method before it is bound to an instance: the frame for `this` is still missing. -/
def Closure.ChartedMethod (f : Closure) : Prop :=
  ∃ scopes shapes declaration, chart.Chain f.frame shapes ∧ s.Fits f.frame scopes
    ∧ Shaped c.distinct (thisScope :: scopes) (.this declaration :: shapes)
    ∧ AllDefined (thisScope :: scopes)
    ∧ f.declaration.Situated c.toSetting (thisScope :: scopes) (.this declaration :: shapes)

/-- A class has a lineage, and its methods are known. -/
structure ClassValue.Charted (k : ClassValue) : Prop where
  lineage : ∃ lineage, Lineage c.happened k lineage
  methods : ∀ layer ∈ k.layers, ∀ (name : String) (method : Closure),
    layer.methods[name]? = some method → method.ChartedMethod c chart s

/-- All functions and classes that a value holds are known. -/
def Value.Charted : Value → Prop
  | .function _ closure => closure.Charted c chart s
  | .class k => k.Charted c chart s
  | .instance o => o.ofClass.Charted c chart s
  | _ => True

/-- A statement returns only such values. -/
def Flow.Charted : Flow → Prop
  | .normal => True
  | .returned value => value.Charted c chart s

end Values

/-- The chart describes the frames of the machine, and all values in the store are known. -/
structure Machine.Charted (c : Scene) (chart : Chart) (m : Machine) : Prop where
  hops : m.hops = c.table
  size : m.store.frames.size = chart.length
  nonempty : 0 < chart.length
  links : ∀ (f : FrameId) (shape : Shape) (outer : FrameId),
    chart[f.index]? = some (shape, some outer) → m.store.enclosing? f = some outer
  admits : ∀ (f : FrameId) (shape : Shape) (outer : FrameId),
    chart[f.index]? = some (shape, some outer) → ∀ (name : String) (value : Value),
      m.store.local? f name = some value → shape.Admits c.happened f name value
  bound : ∀ (f : FrameId) (name : String) (value : Value), m.store.local? f name = some value →
    value.Charted c chart m.store
  fields : ∀ (o : Instance) (name : String) (value : Value), m.store.field? o name = some value →
    value.Charted c chart m.store

/-! ### Larger charts and stores -/

section Growth

variable {c : Scene} {chart later : Chart} {s next : Store}

theorem StandsFor.mono (hchart : chart <+: later) (hgrows : s.Grows next) {f : FrameId}
    {scopes : List Scope} {shapes : List Shape} (h : StandsFor c chart s f scopes shapes) :
    StandsFor c later next f scopes shapes :=
  ⟨h.chain.mono hchart, h.fits.mono hgrows, h.shaped⟩

theorem Closure.Charted.mono (hchart : chart <+: later) (hgrows : s.Grows next) {f : Closure}
    (h : f.Charted c chart s) : f.Charted c later next := by
  obtain ⟨scopes, shapes, hstands, hrest⟩ := h
  exact ⟨scopes, shapes, hstands.mono hchart hgrows, hrest⟩

theorem Closure.ChartedMethod.mono (hchart : chart <+: later) (hgrows : s.Grows next) {f : Closure}
    (h : f.ChartedMethod c chart s) : f.ChartedMethod c later next := by
  obtain ⟨scopes, shapes, declaration, hchain, hfits, hrest⟩ := h
  exact ⟨scopes, shapes, declaration, hchain.mono hchart, hfits.mono hgrows, hrest⟩

theorem ClassValue.Charted.mono (hchart : chart <+: later) (hgrows : s.Grows next) {k : ClassValue}
    (h : k.Charted c chart s) : k.Charted c later next where
  lineage := h.lineage
  methods layer hlayer name method hmethod :=
    (h.methods layer hlayer name method hmethod).mono hchart hgrows

theorem Value.Charted.mono (hchart : chart <+: later) (hgrows : s.Grows next) {value : Value}
    (h : value.Charted c chart s) : value.Charted c later next := by
  cases value with
  | function _ closure => exact Closure.Charted.mono hchart hgrows h
  | «class» k => exact ClassValue.Charted.mono hchart hgrows h
  | «instance» o => exact ClassValue.Charted.mono hchart hgrows h
  | _ => trivial

theorem ClassValue.Charted.findMethod? {k : ClassValue} (h : k.Charted c chart s) {name : String}
    {method : Closure} (hfind : k.findMethod? name = some method) :
    method.ChartedMethod c chart s := by
  obtain ⟨layer, hlayer, hmethod⟩ := List.exists_of_findSome?_eq_some hfind
  exact h.methods layer hlayer name method hmethod

/-- A constant holds no function. -/
theorem Literal.charted_value (value : Literal) : value.value.Charted c chart s := by
  cases value <;> trivial

end Growth

/-! ### What is known is sound -/

section Soundness

variable {c : Scene} {chart : Chart} {s : Store}

theorem Closure.Charted.sound {f : Closure} (h : f.Charted c chart s) :
    f.Sound c.table c.kept s := by
  obtain ⟨scopes, shapes, hstands, -, hsituated, hthis⟩ := h
  exact ⟨scopes, hstands.fits, hsituated.placed, hthis⟩

theorem ClassValue.Charted.sound {k : ClassValue} (h : k.Charted c chart s) :
    k.Sound c.table c.kept s := by
  intro layer hlayer name method hmethod
  obtain ⟨scopes, shapes, declaration, -, hfits, -, -, hsituated⟩ :=
    h.methods layer hlayer name method hmethod
  exact ⟨scopes, hfits, hsituated.placed⟩

theorem Value.Charted.sound {value : Value} (h : value.Charted c chart s) :
    value.Sound c.table c.kept s := by
  cases value with
  | function _ closure => exact Closure.Charted.sound h
  | «class» k => exact ClassValue.Charted.sound h
  | «instance» o => exact ClassValue.Charted.sound h
  | _ => trivial

theorem Machine.Charted.sound {m : Machine} (h : m.Charted c chart) :
    m.Sound c.table c.kept where
  hops := h.hops
  size := by rw [h.size]; exact h.nonempty
  bound f name value hvalue := (h.bound f name value hvalue).sound
  fields o name value hvalue := (h.fields o name value hvalue).sound

end Soundness

/-! ### Other tables -/

/-- The same with another table, of which other hop counts are kept. -/
def Scene.withTable (c : Scene) (table : HopTable) (kept : Nat → Prop) : Scene :=
  { c with table, kept }

section Tables

variable {c : Scene} {chart : Chart} {s : Store} {table : HopTable} {kept : Nat → Prop}

theorem FunctionDecl.Situated.withTable {f : FunctionDecl} {scopes : List Scope}
    {shapes : List Shape} (h : f.Situated c.toSetting scopes shapes)
    (hagree : ∀ id, c.kept id → c.table[id]? = table[id]?) (hkept : ∀ id, c.kept id → kept id) :
    f.Situated (c.withTable table kept).toSetting scopes shapes :=
  ⟨h.placed.withTable hagree hkept, h.wellFormed, h.mentioned, h.fresh⟩

theorem ClassValue.Charted.withTable {k : ClassValue} (h : k.Charted c chart s)
    (hagree : ∀ id, c.kept id → c.table[id]? = table[id]?) (hkept : ∀ id, c.kept id → kept id) :
    k.Charted (c.withTable table kept) chart s where
  lineage := h.lineage
  methods layer hlayer name method hmethod := by
    obtain ⟨scopes, shapes, declaration, hchain, hfits, hshaped, hdefined, hsituated⟩ :=
      h.methods layer hlayer name method hmethod
    exact ⟨scopes, shapes, declaration, hchain, hfits, hshaped, hdefined,
      hsituated.withTable hagree hkept⟩

theorem Value.Charted.withTable {value : Value} (h : value.Charted c chart s)
    (hagree : ∀ id, c.kept id → c.table[id]? = table[id]?) (hkept : ∀ id, c.kept id → kept id) :
    value.Charted (c.withTable table kept) chart s := by
  cases value with
  | function _ closure =>
    obtain ⟨scopes, shapes, hstands, hdefined, hsituated, hthis⟩ := h
    exact ⟨scopes, shapes, ⟨hstands.chain, hstands.fits, hstands.shaped⟩, hdefined,
      hsituated.withTable hagree hkept, hthis⟩
  | «class» k => exact ClassValue.Charted.withTable h hagree hkept
  | «instance» o => exact ClassValue.Charted.withTable h hagree hkept
  | _ => trivial

/-- Functions only rely on hop counts that are kept, so the others may change. -/
theorem Machine.Charted.withTable {m : Machine} (h : m.Charted c chart)
    (hagree : ∀ id, c.kept id → c.table[id]? = table[id]?) (hkept : ∀ id, c.kept id → kept id) :
    Machine.Charted (c.withTable table kept) chart { m with hops := table } where
  hops := rfl
  size := h.size
  nonempty := h.nonempty
  links := h.links
  admits := h.admits
  bound f name value hvalue := (h.bound f name value hvalue).withTable hagree hkept
  fields o name value hvalue := (h.fields o name value hvalue).withTable hagree hkept

end Tables

/-! ### Changes of the machine -/

section Changes

variable {c : Scene} {chart : Chart} {m after : Machine}

/-- Only the store and the hop counts matter. -/
theorem Machine.Charted.of_store_eq (hm : m.Charted c chart) (hstore : after.store = m.store)
    (hhops : after.hops = m.hops) : after.Charted c chart where
  hops := by rw [hhops, hm.hops]
  size := by rw [hstore]; exact hm.size
  nonempty := hm.nonempty
  links := by rw [hstore]; exact hm.links
  admits := by rw [hstore]; exact hm.admits
  bound := by rw [hstore]; exact hm.bound
  fields := by rw [hstore]; exact hm.fields

/-- A name is bound that the shape of the frame admits. -/
theorem Machine.Charted.define (hm : m.Charted c chart) {f : FrameId} {name : String} {value : Value}
    (hadmits : ∀ shape outer, chart[f.index]? = some (shape, some outer) →
      shape.Admits c.happened f name value)
    (hvalue : value.Charted c chart (m.store.define f name value)) :
    (m.mapStore fun store => store.define f name value).Charted c chart := by
  have hgrows := Store.Grows.define m.store f name value
  have hmono := fun {found : Value} (h : found.Charted c chart m.store) =>
    h.mono (List.prefix_refl chart) hgrows
  refine ⟨hm.hops, (Store.size_define ..).trans hm.size, hm.nonempty, ?_, ?_, ?_, ?_⟩
  · intro g shape outer hg
    exact (Store.enclosing?_define ..).trans (hm.links g shape outer hg)
  · intro g shape outer hg other found hfound
    have hlocal : (m.store.define f name value).local? g other = some found := hfound
    by_cases hsame : g = f ∧ other = name
    · obtain ⟨rfl, rfl⟩ := hsame
      have hlt : g.index < m.store.frames.size := by simpa using Store.lt_size_of_local? hlocal
      rw [Store.local?_define_self hlt] at hlocal
      cases hlocal
      exact hadmits shape outer hg
    · rw [Store.local?_define_of_ne (not_and_or.mp hsame)] at hlocal
      exact hm.admits g shape outer hg other found hlocal
  · intro g other found hfound
    rcases Store.eq_of_local?_define hfound with rfl | hold
    · exact hvalue
    · exact hmono (hm.bound g other found hold)
  · intro o other found hfound
    exact hmono (hm.fields o other found hfound)

/-- A new frame is put on the chart with a shape that it is meant to have. -/
theorem Machine.Charted.child (hm : m.Charted c chart) {f : FrameId}
    (hf : f.index < m.store.frames.size) (shape : Shape) :
    (m.allocate fun store => store.child f).2.Charted c (chart.withChild shape f) := by
  have hgrows := Store.Grows.child m.store f
  have hmono := fun {found : Value} (h : found.Charted c chart m.store) =>
    h.mono (chart.prefix_withChild shape f) hgrows
  refine ⟨hm.hops, ?_, ?_, ?_, ?_, ?_, ?_⟩
  · exact (Store.size_child ..).trans (by rw [hm.size, Labels.length_withChild])
  · rw [Labels.length_withChild]
    exact Nat.succ_pos _
  · intro g other outer hg
    rcases Labels.eq_of_getElem?_withChild hg with ⟨hlt, hold⟩ | ⟨hnew, -, houter⟩
    · rw [← hm.size] at hlt
      exact (Store.enclosing?_child_of_lt hlt f).trans (hm.links g other outer hold)
    · cases houter
      have hg : g = (m.store.child f).1 := FrameId.ext (by rw [hnew, Store.child_index, hm.size])
      rw [hg]
      exact Store.enclosing?_child_self hf
  · intro g other outer hg name found hfound
    have hlocal : m.store.local? g name = some found :=
      (Store.local?_child m.store f g name).symm.trans hfound
    have hlt := Store.lt_size_of_local? hlocal
    rcases Labels.eq_of_getElem?_withChild hg with ⟨-, hold⟩ | ⟨hnew, -, -⟩
    · exact hm.admits g other outer hold name found hlocal
    · rw [hm.size, hnew] at hlt
      exact absurd hlt (Nat.lt_irrefl _)
  · intro g name found hfound
    exact hmono (hm.bound g name found ((Store.local?_child m.store f g name).symm.trans hfound))
  · intro o name found hfound
    exact hmono (hm.fields o name found hfound)

theorem Machine.Charted.label_child (hm : m.Charted c chart) (f : FrameId) (shape : Shape) :
    (chart.withChild shape f)[(m.store.child f).1.index]? = some (shape, some f) := by
  rw [Store.child_index, hm.size]
  exact chart.getElem?_withChild_self shape f

theorem Machine.Charted.chain_child (hm : m.Charted c chart) {f : FrameId} {shapes : List Shape}
    (hchain : chart.Chain f shapes) (shape : Shape) :
    (chart.withChild shape f).Chain (m.store.child f).1 (shape :: shapes) :=
  .inner (hm.label_child f shape) (hchain.mono (chart.prefix_withChild shape f))

theorem Machine.Charted.newInstance (hm : m.Charted c chart) (k : ClassValue) :
    (m.allocate fun store => store.newInstance k).2.Charted c chart := by
  have hgrows : m.store.Grows (m.store.newInstance k).2 := Store.Grows.of_frames_eq rfl
  have hmono := fun {found : Value} (h : found.Charted c chart m.store) =>
    h.mono (List.prefix_refl chart) hgrows
  refine ⟨hm.hops, hm.size, hm.nonempty, hm.links, hm.admits, ?_, ?_⟩
  · exact fun g name found hfound => hmono (hm.bound g name found hfound)
  · intro o other found hfound
    exact hmono (hm.fields o other found (Store.field?_of_newInstance k hfound))

theorem Machine.Charted.setField (hm : m.Charted c chart) (o : Instance) (name : String)
    {value : Value} (hvalue : value.Charted c chart m.store) :
    (m.mapStore fun store => store.setField o name value).Charted c chart := by
  have hgrows : m.store.Grows (m.store.setField o name value) := Store.Grows.of_frames_eq rfl
  have hmono := fun {found : Value} (h : found.Charted c chart m.store) =>
    h.mono (List.prefix_refl chart) hgrows
  refine ⟨hm.hops, hm.size, hm.nonempty, hm.links, hm.admits, ?_, ?_⟩
  · exact fun g name found hfound => hmono (hm.bound g name found hfound)
  · intro owner other found hfound
    rcases Store.eq_of_field?_setField hfound with rfl | hold
    · exact hmono hvalue
    · exact hmono (hm.fields owner other found hold)

end Changes

end Treewalk
