import Treewalk.Evaluation
import Treewalk.Proofs.Evaluation.Discipline
import Treewalk.Proofs.Store.Growth

/-!
# Hop counts fit the frames

**Code that is placed in scopes never asks for a frame or a binding that is not there, as long
as it runs in frames that fit these scopes.**  Every function that a value holds was declared in
a frame that fits the scopes around its declaration, and frames go on to fit.  So the rule is
kept by everything that a program does: new frames, new names, closures that are called much
later, and runs that fail half-way.
-/

namespace Treewalk

section Values

variable (table : HopTable) (kept : Nat → Prop) (s : Store)

/-- A function whose frame fits the scopes around its declaration.  An initializer finds `this`
    in that frame. -/
def Closure.Sound (f : Closure) : Prop :=
  ∃ scopes, s.Fits f.frame scopes ∧ f.declaration.Placed table kept scopes
    ∧ (f.isInitializer = true → Defines scopes 0 "this")

/-- A method before it is bound to an instance. -/
def Closure.SoundMethod (f : Closure) : Prop :=
  ∃ scopes, s.Fits f.frame scopes ∧ f.declaration.Placed table kept (thisScope :: scopes)

/-- All methods of a class and its ancestors are sound. -/
def ClassValue.Sound (c : ClassValue) : Prop :=
  ∀ layer ∈ c.layers, ∀ (name : String) (method : Closure), layer.methods[name]? = some method →
    method.SoundMethod table kept s

/-- All functions that a value holds are sound. -/
def Value.Sound : Value → Prop
  | .function _ closure => closure.Sound table kept s
  | .class c => c.Sound table kept s
  | .instance o => o.ofClass.Sound table kept s
  | _ => True

/-- A statement returns only sound values. -/
def Flow.Sound : Flow → Prop
  | .normal => True
  | .returned value => value.Sound table kept s

end Values

/-- All values in the store are sound. -/
structure Machine.Sound (table : HopTable) (kept : Nat → Prop) (m : Machine) : Prop where
  hops : m.hops = table
  size : 0 < m.store.frames.size
  bound : ∀ (f : FrameId) (name : String) (value : Value), m.store.local? f name = some value →
    value.Sound table kept m.store
  fields : ∀ (o : Instance) (name : String) (value : Value), m.store.field? o name = some value →
    value.Sound table kept m.store

/-! ### Before the first program -/

/-- Nothing but the clock is bound. -/
theorem Machine.local?_initial {outside : Outside} {f : FrameId} {name : String} {value : Value}
    (h : (Machine.initial outside).store.local? f name = some value) : value = .native .clock := by
  rcases Store.eq_of_local?_define h with rfl | hinitial
  · rfl
  · exfalso
    unfold Store.local? Store.initial at hinitial
    rcases hindex : f.index with _ | index <;> simp [hindex] at hinitial

theorem Machine.field?_initial (outside : Outside) (o : Instance) (name : String) :
    (Machine.initial outside).store.field? o name = none := by
  simp [Machine.initial, Store.initial, Store.define, Store.field?]

section Growth

variable {table : HopTable} {kept : Nat → Prop} {s later : Store}

theorem Closure.Sound.mono (hgrows : s.Grows later) {f : Closure} (h : f.Sound table kept s) :
    f.Sound table kept later := by
  obtain ⟨scopes, hfits, hplaced, hthis⟩ := h
  exact ⟨scopes, hfits.mono hgrows, hplaced, hthis⟩

theorem ClassValue.Sound.mono (hgrows : s.Grows later) {c : ClassValue}
    (h : c.Sound table kept s) : c.Sound table kept later := by
  intro layer hlayer name method hmethod
  obtain ⟨scopes, hfits, hplaced⟩ := h layer hlayer name method hmethod
  exact ⟨scopes, hfits.mono hgrows, hplaced⟩

theorem Value.Sound.mono (hgrows : s.Grows later) {value : Value} (h : value.Sound table kept s) :
    value.Sound table kept later := by
  cases value with
  | function _ closure => exact Closure.Sound.mono hgrows h
  | «class» c => exact ClassValue.Sound.mono hgrows h
  | «instance» o => exact ClassValue.Sound.mono hgrows h
  | _ => trivial

theorem ClassValue.Sound.findMethod? {c : ClassValue} (h : c.Sound table kept s) {name : String}
    {method : Closure} (hfind : c.findMethod? name = some method) :
    method.SoundMethod table kept s := by
  obtain ⟨layer, hlayer, hmethod⟩ := List.exists_of_findSome?_eq_some hfind
  exact h layer hlayer name method hmethod

/-- A constant holds no function. -/
theorem Literal.sound_value (value : Literal) : value.value.Sound table kept s := by
  cases value <;> trivial

end Growth

/-- Runs keep the machine sound, let the store grow, come back to their frame, and stop for no
    breach. -/
def sound (table : HopTable) (kept : Nat → Prop) : Discipline where
  holds := Machine.Sound table kept
  later m after := m.store.Grows after.store ∧ after.current = m.current
  refl _ := ⟨.refl _, rfl⟩
  trans h hlater := ⟨h.1.trans hlater.1, hlater.2.trans h.2⟩
  permits halt := ∀ breach, halt ≠ .breach breach

/-! ### Changes of the machine -/

section Changes

variable {table : HopTable} {kept : Nat → Prop} {m after : Machine}

/-- Only the store and the hop counts matter. -/
theorem Machine.Sound.of_store_eq (hm : m.Sound table kept) (hstore : after.store = m.store)
    (hhops : after.hops = m.hops) : after.Sound table kept where
  hops := by rw [hhops, hm.hops]
  size := by rw [hstore]; exact hm.size
  bound := by rw [hstore]; exact hm.bound
  fields := by rw [hstore]; exact hm.fields

/-- A function may be sound only once its own name is bound, so the new value is looked at in the
    new store. -/
theorem Machine.Sound.define (hm : m.Sound table kept) (f : FrameId) (name : String)
    {value : Value} (hvalue : value.Sound table kept (m.store.define f name value)) :
    (m.mapStore fun store => store.define f name value).Sound table kept := by
  have hgrows := Store.Grows.define m.store f name value
  refine ⟨hm.hops, Nat.lt_of_lt_of_le hm.size hgrows.size, ?_, ?_⟩
  · intro g other found hfound
    rcases Store.eq_of_local?_define hfound with rfl | hold
    · exact hvalue
    · exact (hm.bound g other found hold).mono hgrows
  · intro o other found hfound
    exact (hm.fields o other found hfound).mono hgrows

theorem Machine.Sound.child (hm : m.Sound table kept) (f : FrameId) :
    (m.allocate fun store => store.child f).2.Sound table kept := by
  have hgrows := Store.Grows.child m.store f
  refine ⟨hm.hops, Nat.lt_of_lt_of_le hm.size hgrows.size, ?_, ?_⟩
  · intro g other found hfound
    have hold : m.store.local? g other = some found := by
      rw [← Store.local?_child m.store f g other]
      exact hfound
    exact (hm.bound g other found hold).mono hgrows
  · intro o other found hfound
    exact (hm.fields o other found hfound).mono hgrows

theorem Machine.Sound.newInstance (hm : m.Sound table kept) (c : ClassValue) :
    (m.allocate fun store => store.newInstance c).2.Sound table kept := by
  have hgrows : m.store.Grows (m.store.newInstance c).2 := Store.Grows.of_frames_eq rfl
  refine ⟨hm.hops, hm.size, ?_, ?_⟩
  · intro g other found hfound
    exact (hm.bound g other found hfound).mono hgrows
  · intro o other found hfound
    exact (hm.fields o other found (Store.field?_of_newInstance c hfound)).mono hgrows

theorem Machine.Sound.setField (hm : m.Sound table kept) (o : Instance) (name : String)
    {value : Value} (hvalue : value.Sound table kept m.store) :
    (m.mapStore fun store => store.setField o name value).Sound table kept := by
  have hgrows : m.store.Grows (m.store.setField o name value) := Store.Grows.of_frames_eq rfl
  refine ⟨hm.hops, hm.size, ?_, ?_⟩
  · intro g other found hfound
    exact (hm.bound g other found hfound).mono hgrows
  · intro owner other found hfound
    rcases Store.eq_of_field?_setField hfound with rfl | hold
    · exact hvalue.mono hgrows
    · exact (hm.fields owner other found hold).mono hgrows

end Changes

/-! ### Other tables -/

section Tables

variable {table other : HopTable} {kept more : Nat → Prop} {s : Store}

/-- Functions only rely on hop counts that are kept. -/
theorem FunctionDecl.Placed.withTable {scopes : List Scope} {f : FunctionDecl}
    (h : f.Placed table kept scopes) (hagree : ∀ id, kept id → table[id]? = other[id]?)
    (hkept : ∀ id, kept id → more id) : f.Placed other more scopes :=
  f.placed_of_agree hkept h fun id hid => hagree id (h.keeps id hid)

theorem ClassValue.Sound.withTable {c : ClassValue} (h : c.Sound table kept s)
    (hagree : ∀ id, kept id → table[id]? = other[id]?) (hkept : ∀ id, kept id → more id) :
    c.Sound other more s := by
  intro layer hlayer name method hmethod
  obtain ⟨scopes, hfits, hplaced⟩ := h layer hlayer name method hmethod
  exact ⟨scopes, hfits, hplaced.withTable hagree hkept⟩

theorem Value.Sound.withTable {value : Value} (h : value.Sound table kept s)
    (hagree : ∀ id, kept id → table[id]? = other[id]?) (hkept : ∀ id, kept id → more id) :
    value.Sound other more s := by
  cases value with
  | function _ closure =>
    obtain ⟨scopes, hfits, hplaced, hthis⟩ := h
    exact ⟨scopes, hfits, hplaced.withTable hagree hkept, hthis⟩
  | «class» c => exact ClassValue.Sound.withTable h hagree hkept
  | «instance» o => exact ClassValue.Sound.withTable h hagree hkept
  | _ => trivial

theorem Machine.Sound.withTable {m : Machine} (h : m.Sound table kept)
    (hagree : ∀ id, kept id → table[id]? = other[id]?) (hkept : ∀ id, kept id → more id) :
    Machine.Sound other more { m with hops := other } where
  hops := rfl
  size := h.size
  bound f name value hvalue := (h.bound f name value hvalue).withTable hagree hkept
  fields o name value hvalue := (h.fields o name value hvalue).withTable hagree hkept

end Tables

/-! ### Single actions -/

namespace Run

variable {table : HopTable} {kept : Nat → Prop} {m : Machine} {scopes : List Scope}

theorem sound_fault {α : Type} {Q : α → Machine → Prop} (hm : m.Sound table kept) (site : Name)
    (cause : FaultCause) : Keeps (sound table kept) (fault site cause) m Q := by
  apply keeps_throw hm
  intro breach h
  cases h

theorem sound_orFault {α : Type} {Q : α → Machine → Prop} (hm : m.Sound table kept) (site : Name)
    {result : Except FaultCause α} (hQ : ∀ a, result = .ok a → Q a m) :
    Keeps (sound table kept) (orFault site result) m Q := by
  rcases result with cause | a
  · exact sound_fault hm site cause
  · exact keeps_pure hm (hQ a rfl)

theorem sound_exhausted {α : Type} {Q : α → Machine → Prop} (hm : m.Sound table kept) :
    Keeps (sound table kept) exhausted m Q := by
  apply keeps_throw hm
  intro breach h
  cases h

theorem sound_currentFrame (hm : m.Sound table kept) :
    Keeps (sound table kept) currentFrame m fun frame after => frame = m.current ∧ after = m :=
  keeps_of_ok rfl hm ⟨.refl _, rfl⟩ ⟨rfl, rfl⟩

theorem sound_define (hm : m.Sound table kept) (f : FrameId) (name : String) {value : Value}
    (hvalue : value.Sound table kept (m.store.define f name value)) :
    Keeps (sound table kept) (define f name value) m
      fun _ after => after.store = m.store.define f name value :=
  keeps_of_ok rfl (hm.define f name hvalue) ⟨.define _ _ _ _, rfl⟩ rfl

theorem sound_child (hm : m.Sound table kept) (f : FrameId) :
    Keeps (sound table kept) (child f) m
      fun frame after => frame = (m.store.child f).1 ∧ after.store = (m.store.child f).2 :=
  keeps_of_ok rfl (hm.child f) ⟨.child _ _, rfl⟩ ⟨rfl, rfl⟩

theorem sound_freshIdentity (hm : m.Sound table kept) :
    Keeps (sound table kept) freshIdentity m fun _ after => after.store = m.store :=
  keeps_of_ok rfl (hm.of_store_eq rfl rfl) ⟨.refl _, rfl⟩ rfl

theorem sound_functionValue (hm : m.Sound table kept) {f : Closure}
    (hf : f.Sound table kept m.store) :
    Keeps (sound table kept) (functionValue f) m fun value after =>
      value.Sound table kept after.store ∧ after.store = m.store := by
  refine (sound_freshIdentity hm).bind fun identity after hafter _ hstore => ?_
  apply keeps_pure hafter
  rw [hstore]
  exact ⟨hf, rfl⟩

/-- What runs in another frame leaves the frame as it was. -/
theorem sound_within {α : Type} {Q : α → Machine → Prop} {f : FrameId} {body : Run α}
    (hbody : Keeps (sound table kept) body { m with current := f } Q) :
    Keeps (sound table kept) (within f body) m fun a after =>
      ∃ inner : Machine, Q a inner ∧ inner.store = after.store := by
  unfold Keeps at hbody ⊢
  unfold within
  rcases hresult : body { m with current := f } with ⟨a, inner⟩ | ⟨halt, inner⟩
  · rw [hresult] at hbody
    obtain ⟨hsound, hlater, hQ⟩ := hbody
    exact ⟨hsound.of_store_eq rfl rfl, ⟨hlater.1, rfl⟩, inner, hQ, rfl⟩
  · rw [hresult] at hbody
    obtain ⟨hsound, hlater, hpermits⟩ := hbody
    exact ⟨hsound.of_store_eq rfl rfl, ⟨hlater.1, rfl⟩, hpermits⟩

theorem sound_readGlobal (hm : m.Sound table kept) (name : Name) :
    Keeps (sound table kept) (readGlobal name) m fun value after =>
      value.Sound table kept after.store := by
  refine keeps_readGlobal hm (fun breach h => ?_) fun value hfound => hm.bound _ _ _ hfound
  cases h

/-- A name that is ready in the scope which the hops lead to is read without a breach. -/
theorem sound_readAt (hm : m.Sound table kept) (hfits : m.store.Fits m.current scopes) {hops : Nat}
    {name : String} (hready : Defines scopes hops name) :
    Keeps (sound table kept) (readAt hops name) m fun value after =>
      value.Sound table kept after.store ∧ after = m := by
  obtain ⟨owner, value, -, hlocal, hget⟩ := hfits.getAt hready
  refine keeps_readAt hm (fun breach h => ?_) fun found h => ?_
  · cases hget.symm.trans h
  · cases hget.symm.trans h
    exact ⟨hm.bound _ _ _ hlocal, rfl⟩

theorem sound_hopsOf (hm : m.Sound table kept) (id : Nat) :
    Keeps (sound table kept) (hopsOf id) m fun hops after => hops = table[id]? ∧ after = m :=
  keeps_of_ok rfl hm ⟨.refl _, rfl⟩ ⟨by rw [hm.hops], rfl⟩

theorem sound_read (hm : m.Sound table kept) (hfits : m.store.Fits m.current scopes) {name : Name}
    {id : Nat} (hplaced : ReadPlaced table scopes id name.text) :
    Keeps (sound table kept) (read name id) m fun value after =>
      value.Sound table kept after.store := by
  unfold read
  refine (sound_hopsOf hm id).bind ?_
  rintro _ _ - - ⟨rfl, rfl⟩
  rw [hplaced.hops]
  rcases hfound : hopsIn scopes name.text with _ | hops
  · exact sound_readGlobal hm name
  · exact (sound_readAt hm hfits (hplaced.ready hops hfound)).imp fun _ _ _ h => h.1

theorem sound_assignFrom (hm : m.Sound table kept) (f : FrameId) (name : Name) {value : Value}
    (hvalue : value.Sound table kept m.store) :
    Keeps (sound table kept) (assignFrom f name value) m fun _ _ => True := by
  refine keeps_assignFrom hm (fun breach h => ?_) fun owner _ => ?_
  · cases h
  · exact keeps_of_ok rfl (hm.define owner name.text (hvalue.mono (.define _ _ _ _)))
      ⟨.define _ _ _ _, rfl⟩ trivial

/-- An assignment only needs enough frames; its name need not be ready. -/
theorem sound_assignAt (hm : m.Sound table kept) (hfits : m.store.Fits m.current scopes)
    {hops : Nat} {name : String} (hfound : hopsIn scopes name = some hops) {value : Value}
    (hvalue : value.Sound table kept m.store) :
    Keeps (sound table kept) (assignAt hops name value) m fun _ _ => True := by
  obtain ⟨scope, hscope, -⟩ := exists_of_hopsIn hfound
  obtain ⟨hlt, -⟩ := List.getElem?_eq_some_iff.mp hscope
  obtain ⟨owner, howner, -⟩ := hfits.ancestor? (Nat.le_of_lt hlt)
  exact keeps_of_ok (assignAt_of_ancestor howner value)
    (hm.define owner name (hvalue.mono (.define _ _ _ _))) ⟨.define _ _ _ _, rfl⟩ trivial

theorem sound_assign (hm : m.Sound table kept) (hfits : m.store.Fits m.current scopes)
    {name : Name} {id : Nat} (hhops : table[id]? = hopsIn scopes name.text) {value : Value}
    (hvalue : value.Sound table kept m.store) :
    Keeps (sound table kept) (assign name id value) m fun _ _ => True := by
  unfold assign
  refine (sound_hopsOf hm id).bind ?_
  rintro _ _ - - ⟨rfl, rfl⟩
  rw [hhops]
  rcases hfound : hopsIn scopes name.text with _ | hops
  · exact sound_assignFrom hm Store.globals name hvalue
  · exact sound_assignAt hm hfits hfound hvalue

/-- A method that is bound to an instance finds `this` in a frame of its own. -/
theorem sound_bindMethod (hm : m.Sound table kept) {method : Closure} {o : Instance}
    (hmethod : method.SoundMethod table kept m.store)
    (ho : o.ofClass.Sound table kept m.store) :
    Keeps (sound table kept) (bindMethod method o) m fun f after =>
      f.Sound table kept after.store ∧ f.declaration = method.declaration := by
  obtain ⟨scopes, hfits, hplaced⟩ := hmethod
  unfold bindMethod
  refine (sound_child hm method.frame).bind ?_
  rintro frame middle hmiddle hlater ⟨rfl, hstore⟩
  have hthis : (Value.instance o).Sound table kept middle.store := ho.mono hlater.1
  refine (sound_define hmiddle _ "this" (hthis.mono (.define _ _ _ _))).bind fun _ after hafter hgrows hdefined => ?_
  refine keeps_pure hafter ⟨⟨thisScope :: scopes, ?_, hplaced, ?_⟩, rfl⟩
  · have hinner : middle.store.Fits (m.store.child method.frame).1 (∅ :: scopes) := by
      rw [hstore]
      exact hfits.child hm.size
    refine Store.Fits.putDefined (hinner.mono hgrows.1) ?_
    have hlt := (hinner.mono hgrows.1).lt_size hafter.size
    rw [hdefined, Store.size_define] at hlt
    rw [hdefined, Store.local?_define_self hlt]
    rfl
  · intro _
    exact ⟨thisScope, rfl, by simp [thisScope]⟩

theorem sound_methodOf (hm : m.Sound table kept) {c : ClassValue} {o : Instance}
    (hc : c.Sound table kept m.store) (ho : o.ofClass.Sound table kept m.store) (name : Name) :
    Keeps (sound table kept) (methodOf c o name) m fun value after =>
      value.Sound table kept after.store := by
  unfold methodOf
  rcases hfind : c.findMethod? name.text with _ | method
  · exact sound_fault hm name _
  · refine (sound_bindMethod hm (hc.findMethod? hfind) ho).bind fun f after hafter _ hf => ?_
    exact (sound_functionValue hafter hf.1).imp fun _ _ _ h => h.1

theorem sound_property (hm : m.Sound table kept) {o : Instance}
    (ho : o.ofClass.Sound table kept m.store) (name : Name) :
    Keeps (sound table kept) (property o name) m fun value after =>
      value.Sound table kept after.store := by
  unfold property
  refine (keeps_of_ok rfl hm ⟨.refl _, rfl⟩ ⟨rfl, rfl⟩ :
    Keeps (sound table kept) (field? o name.text) m fun found after =>
      found = m.store.field? o name.text ∧ after = m).bind ?_
  rintro _ m - - ⟨rfl, rfl⟩
  rcases hfield : m.store.field? o name.text with _ | value
  · exact sound_methodOf hm ho ho name
  · exact keeps_pure hm (hm.fields o name.text value hfield)

/-- A reference through `super` finds `super`, and `this` one frame further inside. -/
theorem sound_superMethod (hm : m.Sound table kept) (hfits : m.store.Fits m.current scopes)
    {id : Nat} (hplaced : SuperPlaced table scopes id) (line : Nat) (method : Name) :
    Keeps (sound table kept) (superMethod line id method) m fun value after =>
      value.Sound table kept after.store := by
  obtain ⟨inner, hhops, -, hsuper, hthis⟩ := hplaced
  unfold superMethod
  refine (sound_hopsOf hm id).bind ?_
  rintro _ _ - - ⟨rfl, rfl⟩
  rw [hhops]
  refine (sound_readAt hm hfits hsuper).bind ?_
  rintro parent _ - - ⟨hparent, rfl⟩
  cases parent with
  | «class» superclass =>
    refine (sound_readAt hm hfits hthis).bind ?_
    rintro receiver _ - - ⟨hreceiver, rfl⟩
    cases receiver with
    | «instance» o => exact sound_methodOf hm hparent hreceiver method
    | _ => exact sound_fault hm _ _
  | _ => exact sound_fault hm _ _

theorem sound_newInstance (hm : m.Sound table kept) (c : ClassValue) :
    Keeps (sound table kept) (newInstance c) m fun o _ => o.ofClass = c :=
  keeps_of_ok rfl (hm.newInstance c) ⟨.of_frames_eq rfl, rfl⟩ rfl

theorem sound_setField (hm : m.Sound table kept) (o : Instance) (name : String) {value : Value}
    (hvalue : value.Sound table kept m.store) :
    Keeps (sound table kept) (setField o name value) m fun _ _ => True :=
  keeps_of_ok rfl (hm.setField o name hvalue) ⟨.of_frames_eq rfl, rfl⟩ trivial

theorem sound_write (hm : m.Sound table kept) (text : String) :
    Keeps (sound table kept) (write text) m fun _ _ => True := by
  by_cases hfits : m.sink.hasRoom text.toUTF8.size = true
  · exact keeps_of_ok (if_pos hfits) (hm.of_store_eq rfl rfl) ⟨.refl _, rfl⟩ trivial
  · refine keeps_of_error (if_neg hfits) (hm.of_store_eq rfl rfl) ⟨.refl _, rfl⟩ ?_
    intro breach h
    cases h

theorem sound_flush (hm : m.Sound table kept) :
    Keeps (sound table kept) flush m fun _ _ => True := by
  by_cases hfails : m.sink.flushFails = true
  · refine keeps_of_error (if_pos hfails) hm ⟨.refl _, rfl⟩ ?_
    intro breach h
    cases h
  · exact keeps_of_ok (if_neg hfails) hm ⟨.refl _, rfl⟩ trivial

theorem sound_clock (hm : m.Sound table kept) :
    Keeps (sound table kept) clock m fun value after => value.Sound table kept after.store :=
  keeps_of_ok rfl (hm.of_store_eq rfl rfl) ⟨.refl _, rfl⟩ trivial

end Run

end Treewalk
