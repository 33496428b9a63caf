import Treewalk.Proofs.Binding.Checking
import Treewalk.Proofs.Evaluation.Moments
import Treewalk.Proofs.Evaluation.SoundRuns

/-!
# Where values come from

**Every function in a run was declared by a source without errors, every initializer was bound to an
instance that its frame still holds as `this`, and every instance has a place in the store.**  These
facts do not depend on hop counts.  `this` is bound when a method is bound to an instance, in a frame
that is made for it, and never again: it is a reserved word, so that no declaration, parameter or
assignment can name it.

The moments that may happen are given.  Runs are looked at whose parts are among them, so that a
binding that happened can be named.
-/

namespace Treewalk

/-! ### Known values -/

/-- A function of a source without errors. -/
def FunctionDecl.Known (f : FunctionDecl) : Prop :=
  f.WellFormed ∧ f.references.Nodup ∧ ∃ inFunction, f.Checked inFunction

theorem WellFormedMethods.of_mem {method : FunctionDecl} : ∀ {methods : List FunctionDecl},
    WellFormedMethods methods → method ∈ methods → method.WellFormed
  | first :: rest, h, hmem => by
    rw [WellFormedMethods] at h
    rcases List.mem_cons.mp hmem with rfl | hrest
    · exact h.1
    · exact WellFormedMethods.of_mem h.2 hrest

section Values

variable (happened : Moment → Prop) (s : Store)

/-- The function comes from binding a method to the instance that its frame holds as `this`. -/
def Closure.Bound (f : Closure) : Prop :=
  ∃ (method : Closure) (o : Instance) (steps : Nat) (before after : Machine),
    happened ⟨.bind method o, steps, before⟩ ∧ Run.bindMethod method o before = .ok f after
      ∧ s.local? f.frame "this" = some (.instance o)

/-- A function of a source without errors.  An initializer was bound to an instance. -/
def Closure.Known (f : Closure) : Prop :=
  f.declaration.Known ∧ (f.isInitializer = true → f.Bound happened s)

/-- A method as it was declared. -/
def Closure.KnownMethod (f : Closure) : Prop :=
  f.declaration.Known ∧ f.isInitializer = f.declaration.isInitializer

/-- All methods of a class and its ancestors are as they were declared, each under its name. -/
def ClassValue.Known (c : ClassValue) : Prop :=
  ∀ layer ∈ c.layers, ∀ (name : String) (method : Closure), layer.methods[name]? = some method →
    method.KnownMethod ∧ method.declaration.name.text = name

/-- All functions that a value holds are known, and an instance has its place. -/
def Value.Known : Value → Prop
  | .function _ closure => closure.Known happened s
  | .class c => c.Known
  | .instance o => o.index < s.fields.size ∧ o.ofClass.Known
  | _ => True

/-- A statement returns only known values. -/
def Flow.Known : Flow → Prop
  | .normal => True
  | .returned value => value.Known happened s

end Values

/-- All values in the store are known. -/
structure Machine.Known (happened : Moment → Prop) (m : Machine) : Prop where
  bound : ∀ (f : FrameId) (name : String) (value : Value), m.store.local? f name = some value →
    value.Known happened m.store
  fields : ∀ (o : Instance) (name : String) (value : Value), m.store.field? o name = some value →
    value.Known happened m.store

/-- Places stay, and what a frame holds as `this` stays as well. -/
structure Store.KeepsThis (s later : Store) : Prop where
  frames : s.frames.size ≤ later.frames.size
  fields : s.fields.size ≤ later.fields.size
  this : ∀ f : FrameId, f.index < s.frames.size → later.local? f "this" = s.local? f "this"

namespace Store.KeepsThis

variable {s middle later : Store}

theorem refl (s : Store) : s.KeepsThis s where
  frames := Nat.le_refl _
  fields := Nat.le_refl _
  this _ _ := rfl

theorem trans (h : s.KeepsThis middle) (hlater : middle.KeepsThis later) : s.KeepsThis later where
  frames := Nat.le_trans h.frames hlater.frames
  fields := Nat.le_trans h.fields hlater.fields
  this f hf := by rw [hlater.this f (Nat.lt_of_lt_of_le hf h.frames), h.this f hf]

theorem define (s : Store) (f : FrameId) {name : String} (hname : name ≠ "this") (value : Value) :
    s.KeepsThis (s.define f name value) where
  frames := Nat.le_of_eq (size_define s f name value).symm
  fields := Nat.le_refl _
  this _ _ := local?_define_of_ne (Or.inr hname.symm) s value

theorem child (s : Store) (f : FrameId) : s.KeepsThis (s.child f).2 where
  frames := by rw [size_child]; exact Nat.le_succ _
  fields := Nat.le_refl _
  this g _ := local?_child s f g "this"

/-- A new frame may be given `this`. -/
theorem childDefine (s : Store) (f : FrameId) (name : String) (value : Value) :
    s.KeepsThis ((s.child f).2.define (s.child f).1 name value) where
  frames := by rw [size_define, size_child]; exact Nat.le_succ _
  fields := Nat.le_refl _
  this g hg := by
    have hne : g ≠ (s.child f).1 := fun heq => by
      rw [heq, child_index] at hg
      exact Nat.lt_irrefl _ hg
    rw [local?_define_of_ne (Or.inl hne), local?_child]

theorem newInstance (s : Store) (c : ClassValue) : s.KeepsThis (s.newInstance c).2 where
  frames := Nat.le_refl _
  fields := by
    show s.fields.size ≤ (s.fields.push ∅).size
    rw [Array.size_push]
    exact Nat.le_succ _
  this _ _ := rfl

theorem setField (s : Store) (o : Instance) (name : String) (value : Value) :
    s.KeepsThis (s.setField o name value) where
  frames := Nat.le_refl _
  fields := by
    have hsize : (s.setField o name value).fields.size = s.fields.size := Array.size_modify
    exact Nat.le_of_eq hsize.symm
  this _ _ := rfl

end Store.KeepsThis

section Growth

variable {happened : Moment → Prop} {s later : Store}

theorem Closure.Known.mono (hkeeps : s.KeepsThis later) {f : Closure} (h : f.Known happened s) :
    f.Known happened later := by
  refine ⟨h.1, fun hinit => ?_⟩
  obtain ⟨method, o, steps, before, after, hhappened, hbind, hthis⟩ := h.2 hinit
  refine ⟨method, o, steps, before, after, hhappened, hbind, ?_⟩
  rw [hkeeps.this _ (Store.lt_size_of_local? hthis), hthis]

theorem Value.Known.mono (hkeeps : s.KeepsThis later) {value : Value}
    (h : value.Known happened s) : value.Known happened later := by
  cases value with
  | function _ closure => exact Closure.Known.mono hkeeps h
  | «instance» o => exact ⟨Nat.lt_of_lt_of_le h.1 hkeeps.fields, h.2⟩
  | «class» c => exact h
  | _ => trivial

theorem ClassValue.Known.findMethod? {c : ClassValue} (h : c.Known) {name : String}
    {method : Closure} (hfind : c.findMethod? name = some method) :
    method.KnownMethod ∧ method.declaration.name.text = name := by
  obtain ⟨layer, hlayer, hmethod⟩ := List.exists_of_findSome?_eq_some hfind
  exact h layer hlayer name method hmethod

theorem Literal.known_value (value : Literal) : value.value.Known happened s := by
  cases value <;> trivial

theorem Value.Plain.known {value : Value} (h : value.Plain) : value.Known happened s := by
  cases value <;> trivial

end Growth

/-- Runs keep what is known. -/
def known (happened : Moment → Prop) : Discipline where
  holds := Machine.Known happened
  later m after := m.store.KeepsThis after.store
  refl _ := .refl _
  trans h hlater := h.trans hlater
  permits _ := True

/-! ### Changes of the machine -/

section Changes

variable {happened : Moment → Prop} {m after : Machine}

theorem Machine.Known.of_store_eq (hm : m.Known happened) (hstore : after.store = m.store) :
    after.Known happened where
  bound := by rw [hstore]; exact hm.bound
  fields := by rw [hstore]; exact hm.fields

/-- A change after which the store holds nothing but what it held and one value. -/
theorem Machine.Known.change (hm : m.Known happened) (hkeeps : m.store.KeepsThis after.store)
    {value : Value} (hvalue : value.Known happened after.store)
    (hbound : ∀ (f : FrameId) (name : String) (found : Value),
      after.store.local? f name = some found → found = value ∨ m.store.local? f name = some found)
    (hfields : ∀ (o : Instance) (name : String) (found : Value),
      after.store.field? o name = some found → found = value ∨ m.store.field? o name = some found) :
    after.Known happened where
  bound f name found h := by
    rcases hbound f name found h with rfl | hold
    · exact hvalue
    · exact (hm.bound f name found hold).mono hkeeps
  fields o name found h := by
    rcases hfields o name found h with rfl | hold
    · exact hvalue
    · exact (hm.fields o name found hold).mono hkeeps

end Changes

namespace Run

variable {happened : Moment → Prop} {m : Machine} {α : Type}

/-! ### Single actions -/

theorem known_throw {Q : α → Machine → Prop} (hm : m.Known happened) (halt : Halt) :
    Keeps (known happened) (throw halt) m Q :=
  keeps_throw hm trivial

theorem known_fault {Q : α → Machine → Prop} (hm : m.Known happened) (site : Name)
    (cause : FaultCause) : Keeps (known happened) (fault site cause) m Q :=
  known_throw hm _

theorem known_orFault {Q : α → Machine → Prop} (hm : m.Known happened) (site : Name)
    {result : Except FaultCause α} (hQ : ∀ a, result = .ok a → Q a m) :
    Keeps (known happened) (orFault site result) m Q := by
  cases result with
  | error cause => exact known_fault hm site cause
  | ok a => exact keeps_pure hm (hQ a rfl)

theorem known_currentFrame (hm : m.Known happened) :
    Keeps (known happened) currentFrame m fun _ after => after = m :=
  keeps_of_ok rfl hm (.refl _) rfl

theorem known_hopsOf (hm : m.Known happened) (id : Nat) :
    Keeps (known happened) (hopsOf id) m fun hops after => hops = m.hops[id]? ∧ after = m :=
  keeps_of_ok rfl hm (.refl _) ⟨rfl, rfl⟩

/-- Any name but `this` may be bound to a known value. -/
theorem known_define (hm : m.Known happened) (f : FrameId) {name : String} (hname : name ≠ "this")
    {value : Value} (hvalue : value.Known happened m.store) :
    Keeps (known happened) (define f name value) m fun _ _ => True := by
  have hkeeps := Store.KeepsThis.define m.store f hname value
  refine keeps_of_ok rfl (hm.change hkeeps (hvalue.mono hkeeps) ?_ fun _ _ _ h => Or.inr h)
    hkeeps trivial
  intro g other found h
  exact Store.eq_of_local?_define h

theorem known_child (hm : m.Known happened) (f : FrameId) :
    Keeps (known happened) (child f) m fun _ _ => True := by
  have hkeeps := Store.KeepsThis.child m.store f
  refine keeps_of_ok rfl ⟨fun g name value h => ?_, fun o name value h => ?_⟩ hkeeps trivial
  · exact (hm.bound g name value ((Store.local?_child m.store f g name).symm.trans h)).mono hkeeps
  · exact (hm.fields o name value h).mono hkeeps

theorem known_freshIdentity (hm : m.Known happened) :
    Keeps (known happened) freshIdentity m fun _ after => after.store = m.store :=
  keeps_of_ok rfl (hm.of_store_eq rfl) (.refl _) rfl

theorem known_functionValue (hm : m.Known happened) {f : Closure}
    (hf : f.Known happened m.store) :
    Keeps (known happened) (functionValue f) m fun value after =>
      value.Known happened after.store := by
  refine (known_freshIdentity hm).bind fun identity after hafter _ hstore => keeps_pure hafter ?_
  rw [hstore]
  exact hf

theorem known_within {Q : α → Machine → Prop} {f : FrameId} {body : Run α}
    (hbody : Keeps (known happened) body { m with current := f } Q) :
    Keeps (known happened) (within f body) m fun a after =>
      ∃ inner : Machine, Q a inner ∧ inner.store = after.store := by
  unfold Keeps at hbody ⊢
  unfold within
  rcases hresult : body { m with current := f } with ⟨a, inner⟩ | ⟨halt, inner⟩
  · rw [hresult] at hbody
    exact ⟨hbody.1.of_store_eq rfl, hbody.2.1, inner, hbody.2.2, rfl⟩
  · rw [hresult] at hbody
    exact ⟨hbody.1.of_store_eq rfl, hbody.2.1, trivial⟩

theorem known_readAt (hm : m.Known happened) (hops : Nat) (name : String) :
    Keeps (known happened) (readAt hops name) m fun value after =>
      value.Known happened m.store ∧ after = m ∧ m.store.getAt m.current hops name = .ok value := by
  refine keeps_readAt hm (fun _ _ => trivial) fun value hget => ?_
  obtain ⟨owner, -, hlocal⟩ := Store.local?_of_getAt hget
  exact ⟨hm.bound owner name value hlocal, rfl, hget⟩

theorem known_readGlobal (hm : m.Known happened) (name : Name) :
    Keeps (known happened) (readGlobal name) m fun value after =>
      value.Known happened after.store := by
  exact keeps_readGlobal hm trivial fun value hfound => hm.bound _ _ _ hfound

theorem known_read (hm : m.Known happened) (name : Name) (id : Nat) :
    Keeps (known happened) (read name id) m fun value after =>
      value.Known happened after.store := by
  unfold read
  refine (known_hopsOf hm id).bind ?_
  rintro hops _ - - ⟨-, rfl⟩
  cases hops with
  | none => exact known_readGlobal hm name
  | some hops =>
    refine (known_readAt hm hops name.text).imp ?_
    rintro value _ - ⟨hvalue, rfl, -⟩
    exact hvalue

theorem known_assignFrom (hm : m.Known happened) (f : FrameId) {name : Name}
    (hname : name.text ≠ "this") {value : Value} (hvalue : value.Known happened m.store) :
    Keeps (known happened) (assignFrom f name value) m fun _ _ => True := by
  exact keeps_assignFrom hm trivial fun owner _ => known_define hm owner hname hvalue

theorem known_assignAt (hm : m.Known happened) (hops : Nat) {name : String}
    (hname : name ≠ "this") {value : Value} (hvalue : value.Known happened m.store) :
    Keeps (known happened) (assignAt hops name value) m fun _ _ => True := by
  exact keeps_assignAt hm (fun _ => trivial) fun owner _ => known_define hm owner hname hvalue

theorem known_assign (hm : m.Known happened) {name : Name} (hname : name.text ≠ "this") (id : Nat)
    {value : Value} (hvalue : value.Known happened m.store) :
    Keeps (known happened) (assign name id value) m fun _ _ => True := by
  unfold assign
  refine (known_hopsOf hm id).bind ?_
  rintro hops _ - - ⟨-, rfl⟩
  cases hops with
  | none => exact known_assignFrom hm _ hname hvalue
  | some hops => exact known_assignAt hm hops hname hvalue

/-- Binding a method gives a function whose frame holds the instance. -/
theorem bindMethod_ok (method : Closure) (o : Instance) (m : Machine) :
    bindMethod method o m = .ok { method with frame := (m.store.child method.frame).1 }
      (m.mapStore fun s =>
        (s.child method.frame).2.define (s.child method.frame).1 "this" (.instance o)) :=
  rfl

theorem local?_childDefine (s : Store) (f : FrameId) (name : String) (value : Value) :
    ((s.child f).2.define (s.child f).1 name value).local? (s.child f).1 name = some value :=
  Store.local?_define_self (Store.child_lt_size s f) name value

theorem known_bindMethod (hm : m.Known happened) {method : Closure} {o : Instance} {steps : Nat}
    (hmethod : method.KnownMethod) (ho : (Value.instance o).Known happened m.store)
    (hhappened : happened ⟨.bind method o, steps, m⟩) :
    Keeps (known happened) (bindMethod method o) m fun f after => f.Known happened after.store := by
  have hkeeps := Store.KeepsThis.childDefine m.store method.frame "this" (.instance o)
  refine keeps_of_ok (bindMethod_ok method o m) ?_ hkeeps ⟨hmethod.1, fun _ => ?_⟩
  · refine hm.change hkeeps (ho.mono hkeeps) (fun g name found h => ?_) fun _ _ _ h => Or.inr h
    exact (Store.eq_of_local?_define h).imp_right fun hold =>
      (Store.local?_child m.store method.frame g name).symm.trans hold
  · refine ⟨method, o, steps, m, _, hhappened, bindMethod_ok method o m, ?_⟩
    exact local?_childDefine m.store method.frame "this" (.instance o)

theorem known_methodOf (hm : m.Known happened) {c : ClassValue} {o : Instance} {steps : Nat}
    (hc : c.Known) (ho : (Value.instance o).Known happened m.store) (name : Name)
    (hhappened : ∀ f, c.findMethod? name.text = some f → happened ⟨.bind f o, steps, m⟩) :
    Keeps (known happened) (methodOf c o name) m fun value after =>
      value.Known happened after.store := by
  unfold methodOf
  rcases hfind : c.findMethod? name.text with _ | method
  · exact known_fault hm name _
  · have hmethod := (hc.findMethod? hfind).1
    refine (known_bindMethod hm hmethod ho (hhappened method hfind)).bind fun f after hafter _ hf => ?_
    exact known_functionValue hafter hf

theorem known_property (hm : m.Known happened) {o : Instance} {steps : Nat}
    (ho : (Value.instance o).Known happened m.store) (name : Name)
    (hhappened : ∀ f, m.store.field? o name.text = none → o.ofClass.findMethod? name.text = some f →
      happened ⟨.bind f o, steps, m⟩) :
    Keeps (known happened) (property o name) m fun value after =>
      value.Known happened after.store := by
  unfold property
  refine (keeps_of_ok rfl hm (.refl _) ⟨rfl, rfl⟩ :
    Keeps (known happened) (field? o name.text) m fun found after =>
      found = m.store.field? o name.text ∧ after = m).bind ?_
  rintro _ m - - ⟨rfl, rfl⟩
  rcases hfield : m.store.field? o name.text with _ | value
  · exact known_methodOf hm ho.2 ho name fun f hf => hhappened f hfield hf
  · exact keeps_pure hm (hm.fields o name.text value hfield)

theorem known_superMethod (hm : m.Known happened) (line id : Nat) (name : Name) {steps : Nat}
    (hhappened : ∀ (inner : Nat) (c : ClassValue) (o : Instance) (f : Closure),
      m.hops[id]? = some (inner + 1) → m.store.getAt m.current (inner + 1) "super" = .ok (.class c) →
      m.store.getAt m.current inner "this" = .ok (.instance o) → c.findMethod? name.text = some f →
      happened ⟨.bind f o, steps, m⟩) :
    Keeps (known happened) (superMethod line id name) m fun value after =>
      value.Known happened after.store := by
  unfold superMethod
  refine (known_hopsOf hm id).bind ?_
  rintro hops _ - - ⟨hhops, rfl⟩
  cases hops with
  | none => exact known_fault hm _ _
  | some hops =>
    refine (known_readAt hm hops "super").bind ?_
    rintro parent _ - - ⟨hparent, rfl, hsuper⟩
    cases parent with
    | «class» c =>
      cases hops with
      | zero => exact known_throw hm _
      | succ inner =>
        refine (known_readAt hm inner "this").bind ?_
        rintro receiver _ - - ⟨hreceiver, rfl, hthis⟩
        cases receiver with
        | «instance» o =>
          exact known_methodOf hm hparent hreceiver name fun f hf =>
            hhappened inner c o f hhops.symm hsuper hthis hf
        | _ => exact known_fault hm _ _
    | _ => exact known_fault hm _ _

theorem known_newInstance (hm : m.Known happened) {c : ClassValue} (hc : c.Known) :
    Keeps (known happened) (newInstance c) m fun o after =>
      (Value.instance o).Known happened after.store ∧ o.ofClass = c := by
  have hkeeps := Store.KeepsThis.newInstance m.store c
  refine keeps_of_ok rfl ⟨fun f name value h => ?_, fun o name value h => ?_⟩ hkeeps ⟨⟨?_, hc⟩, rfl⟩
  · exact (hm.bound f name value h).mono hkeeps
  · exact (hm.fields o name value (Store.field?_of_newInstance c h)).mono hkeeps
  · show m.store.fields.size < (m.store.fields.push ∅).size
    rw [Array.size_push]
    exact Nat.lt_succ_self _

theorem known_setField (hm : m.Known happened) (o : Instance) (name : String) {value : Value}
    (hvalue : value.Known happened m.store) :
    Keeps (known happened) (setField o name value) m fun _ after =>
      m.store.KeepsThis after.store := by
  have hkeeps := Store.KeepsThis.setField m.store o name value
  refine keeps_of_ok rfl (hm.change hkeeps (hvalue.mono hkeeps) (fun _ _ _ h => Or.inr h) ?_)
    hkeeps hkeeps
  intro owner other found h
  exact Store.eq_of_field?_setField h

theorem known_write (hm : m.Known happened) (text : String) :
    Keeps (known happened) (write text) m fun _ _ => True := by
  by_cases hfits : m.sink.hasRoom text.toUTF8.size = true
  · exact keeps_of_ok (if_pos hfits) (hm.of_store_eq rfl) (.refl _) trivial
  · exact keeps_of_error (if_neg hfits) (hm.of_store_eq rfl) (.refl _) trivial

theorem known_flush (hm : m.Known happened) :
    Keeps (known happened) flush m fun _ _ => True := by
  by_cases hfails : m.sink.flushFails = true
  · exact keeps_of_error (if_pos hfails) hm (.refl _) trivial
  · exact keeps_of_ok (if_neg hfails) hm (.refl _) trivial

theorem known_clock (hm : m.Known happened) :
    Keeps (known happened) clock m fun value after => value.Known happened after.store :=
  keeps_of_ok rfl (hm.of_store_eq rfl) (.refl _) trivial

/-! ### Declarations and frames -/

theorem known_blockFrame (hm : m.Known happened) :
    Keeps (known happened) blockFrame m fun _ _ => True := by
  unfold blockFrame
  refine (known_currentFrame hm).bind fun frame after hafter _ _ => ?_
  exact known_child hafter frame

theorem known_bindParams (frame : FrameId) : ∀ (params : List Name) (args : List Value)
    {m : Machine}, m.Known happened → (∀ param ∈ params, IsUnreserved param.text) →
    (∀ value ∈ args, value.Known happened m.store) →
    Keeps (known happened) (bindParams frame params args) m fun _ _ => True
  | [], _, _, hm, _, _ => keeps_pure hm trivial
  | _ :: _, [], _, hm, _, _ => keeps_pure hm trivial
  | param :: params, argument :: args, m, hm, hparams, hargs => by
    rw [bindParams]
    have hname := (hparams param List.mem_cons_self).ne_this
    refine (known_define hm frame hname (hargs argument List.mem_cons_self)).bind ?_
    intro _ after hafter hlater _
    refine known_bindParams frame params args hafter ?_ ?_
    · exact fun other hother => hparams other (List.mem_cons_of_mem _ hother)
    · exact fun value hvalue => (hargs value (List.mem_cons_of_mem _ hvalue)).mono hlater

theorem known_callFrame (hm : m.Known happened) {f : Closure} {args : List Value}
    (hf : f.declaration.Known) (hargs : ∀ value ∈ args, value.Known happened m.store) :
    Keeps (known happened) (callFrame f args) m fun _ _ => True := by
  have hparams : ∀ param ∈ f.declaration.params, IsUnreserved param.text := by
    obtain ⟨hwell, -⟩ := hf
    rcases hdeclaration : f.declaration with ⟨name, params, body⟩
    rw [hdeclaration, FunctionDecl.WellFormed] at hwell
    exact hwell.2.1
  unfold callFrame
  refine (known_child hm f.frame).bind fun frame middle hmiddle hlater _ => ?_
  refine (known_bindParams frame _ args hmiddle hparams fun value hvalue =>
    (hargs value hvalue).mono hlater).bind fun _ after hafter _ _ => ?_
  exact keeps_pure hafter trivial

theorem known_declareFunction (hm : m.Known happened) {declaration : FunctionDecl}
    (hdeclaration : declaration.Known) :
    Keeps (known happened) (declareFunction declaration) m fun _ _ => True := by
  have hname : declaration.name.text ≠ "this" := by
    rcases declaration with ⟨name, params, body⟩
    have hwell := hdeclaration.1
    rw [FunctionDecl.WellFormed] at hwell
    exact hwell.1.ne_this
  unfold declareFunction
  refine (known_currentFrame hm).bind ?_
  rintro frame m - - rfl
  have hf : Closure.Known happened m.store ⟨declaration, frame, false⟩ :=
    ⟨hdeclaration, fun h => by cases h⟩
  refine (known_functionValue hm hf).bind fun value after hafter _ hvalue => ?_
  exact known_define hafter frame hname hvalue

theorem known_superclassOf (hm : m.Known happened) (superclass : Option Reference) :
    Keeps (known happened) (superclassOf superclass) m fun parent _ =>
      ∀ c, parent = some c → c.Known := by
  cases superclass with
  | none => exact keeps_pure hm fun _ h => by cases h
  | some superclass =>
    unfold superclassOf
    refine (known_read hm superclass.name superclass.id).bind fun value after hafter _ hvalue => ?_
    cases value with
    | «class» c => exact keeps_pure hafter fun found h => by cases h; exact hvalue
    | _ => exact known_fault hafter _ _

theorem known_methodFrame (hm : m.Known happened) (frame : FrameId) {parent : Option ClassValue}
    (hparent : ∀ c, parent = some c → c.Known) :
    Keeps (known happened) (methodFrame frame parent) m fun _ _ => True := by
  cases parent with
  | none => exact keeps_pure hm trivial
  | some c =>
    unfold methodFrame
    refine (known_child hm frame).bind fun inner middle hmiddle _ _ => ?_
    have hc : (Value.class c).Known happened middle.store := hparent c rfl
    refine (known_define hmiddle inner (by decide) hc).bind fun _ after hafter _ _ => ?_
    exact keeps_pure hafter trivial

theorem known_newClass (hm : m.Known happened) (name : String) {parent : Option ClassValue}
    {methods : Std.ExtTreeMap String Closure} (hparent : ∀ c, parent = some c → c.Known)
    (hmethods : ∀ (name : String) (method : Closure), methods[name]? = some method →
      method.KnownMethod ∧ method.declaration.name.text = name) :
    Keeps (known happened) (newClass name parent methods) m fun c _ => c.Known := by
  unfold newClass
  refine (known_freshIdentity hm).bind fun identity after hafter _ _ => ?_
  cases parent with
  | none =>
    refine keeps_pure hafter fun layer hlayer => ?_
    rw [List.mem_singleton.mp hlayer]
    exact hmethods
  | some parent =>
    refine keeps_pure hafter fun layer hlayer => ?_
    rcases List.mem_cons.mp hlayer with rfl | hlayer
    · exact hmethods
    · exact hparent parent rfl layer hlayer

theorem known_declareClass (hm : m.Known happened) {name : Name} (hname : IsUnreserved name.text)
    (superclass : Option Reference) {methods : List FunctionDecl}
    (hmethods : ∀ method ∈ methods, method.Known) :
    Keeps (known happened) (declareClass name superclass methods) m fun _ _ => True := by
  unfold declareClass
  refine (known_superclassOf hm superclass).bind fun parent m₁ hm₁ _ hparent => ?_
  refine (known_currentFrame hm₁).bind ?_
  rintro frame m₁ - - rfl
  have hnil : Value.nil.Known happened m₁.store := trivial
  refine (known_define hm₁ frame hname.ne_this hnil).bind fun _ m₂ hm₂ _ _ => ?_
  refine (known_methodFrame hm₂ frame hparent).bind fun inner m₃ hm₃ _ _ => ?_
  have htable : ∀ (other : String) (method : Closure),
      (methodTable inner methods)[other]? = some method →
      method.KnownMethod ∧ method.declaration.name.text = other := by
    intro other method h
    obtain ⟨declaration, hmem, hother, rfl⟩ := exists_of_methodTable h
    exact ⟨⟨hmethods declaration hmem, rfl⟩, hother⟩
  refine (known_newClass hm₃ name.text hparent htable).bind fun c m₄ hm₄ _ hc => ?_
  have hvalue : (Value.class c).Known happened m₄.store := hc
  exact known_assignFrom hm₄ frame hname.ne_this hvalue

end Run

end Treewalk
