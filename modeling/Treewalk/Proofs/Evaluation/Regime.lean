import Treewalk.Proofs.Evaluation.Lineage
import Treewalk.Proofs.Evaluation.Origins

/-!
# Regimes

**What is to hold of all values of a run can be said without going through the evaluator again.**
A regime says in which frames code may run, which functions may be called, and what classes and
instances are to be like, given the store and the identities that have been handed out.  It may ask
for more of the store.  It is lawful if the few things that a program can do to the store keep to
it; then all runs do.

The only names that a program can give are unreserved ones, so the laws say apart what happens to
`this` and to `super`.  Hop counts play no part: wherever a misguided one leads, there is a value of
the regime, or none.
-/

namespace Treewalk

/-- What values depend on: the store, and the identities that have been given. -/
structure Stock where
  store : Store
  identities : Nat

/-- The stock of a machine. -/
def Machine.stock (m : Machine) : Stock :=
  ⟨m.store, m.identities⟩

/-- The machine in which a class has been made, while its name is still bound to `nil`. -/
def ClassDecl.machineWithin (declaration : ClassDecl) (m : Machine) (parent : Option ClassValue) :
    Machine :=
  { m with store := declaration.storeWithin m parent, identities := m.identities + 1 }

/-- What is asked of a stock and of the values in it. -/
structure Regime where
  shape : Stock → Prop
  isScope : Stock → FrameId → Prop
  isCallable : Stock → Closure → Prop
  isClass : Stock → ClassValue → Prop
  isObject : Stock → Instance → Prop

namespace Regime

variable (r : Regime)

/-- What is asked of a value.  Numbers, strings, truth values, `nil` and native functions are always
    in order. -/
def isValue (s : Stock) : Value → Prop
  | .function _ f => r.isCallable s f
  | .class c => r.isClass s c
  | .instance o => r.isObject s o
  | _ => True

/-- The stock has the right shape, and all values in it are in order. -/
structure Holds (s : Stock) : Prop where
  shape : r.shape s
  bound : ∀ (f : FrameId) (name : String) (value : Value), s.store.local? f name = some value →
    r.isValue s value
  fields : ∀ (o : Instance) (name : String) (value : Value), s.store.field? o name = some value →
    r.isValue s value

/-- What was in order is still. -/
structure Onward (s later : Stock) : Prop where
  scope : ∀ f, r.isScope s f → r.isScope later f
  callable : ∀ f, r.isCallable s f → r.isCallable later f
  ofClass : ∀ c, r.isClass s c → r.isClass later c
  object : ∀ o, r.isObject s o → r.isObject later o

/-- The change keeps the shape of the stock, and what was in order. -/
structure Allows (s later : Stock) : Prop where
  shape : r.shape later
  onward : r.Onward s later

/-- The regime admits all that a program can do. -/
structure Lawful : Prop where
  -- What is asked is enough for code to run.
  scope_lt : ∀ {s f}, r.isScope s f → f.index < s.store.frames.size
  callable_code : ∀ {s f}, r.isCallable s f → f.declaration.WellFormed
  callable_scope : ∀ {s f}, r.isCallable s f → r.isScope s f.frame
  object_class : ∀ {s o}, r.isObject s o → r.isClass s o.ofClass
  -- The beginning.
  initial : ∀ outside, r.shape (Machine.initial outside).stock
    ∧ r.isScope (Machine.initial outside).stock Store.globals
  -- Single changes.
  define : ∀ {s name value}, r.Holds s → IsUnreserved name → r.isValue s value → ∀ f,
    r.Allows s ⟨s.store.define f name value, s.identities⟩
  child : ∀ {s f}, r.Holds s → r.isScope s f →
    r.Allows s ⟨(s.store.child f).2, s.identities⟩
      ∧ r.isScope ⟨(s.store.child f).2, s.identities⟩ (s.store.child f).1
  identity : ∀ {s}, r.Holds s → r.Allows s ⟨s.store, s.identities + 1⟩
  function : ∀ {s f declaration}, r.isScope s f → declaration.WellFormed →
    r.isCallable s ⟨declaration, f, false⟩
  newInstance : ∀ {s c}, r.Holds s → r.isClass s c →
    r.Allows s ⟨(s.store.newInstance c).2, s.identities⟩
      ∧ r.isObject ⟨(s.store.newInstance c).2, s.identities⟩ (s.store.newInstance c).1
  setField : ∀ {s o value}, r.Holds s → r.isObject s o → r.isValue s value → ∀ name,
    r.Allows s ⟨s.store.setField o name value, s.identities⟩
  -- A method is bound to an instance in a frame that is made for it.
  bind : ∀ {s c o name method}, r.Holds s → r.isClass s c → c.findMethod? name = some method →
    r.isObject s o →
      let bound : Stock := ⟨(s.store.child method.frame).2.define (s.store.child method.frame).1
        "this" (.instance o), s.identities⟩
      r.Allows s bound
        ∧ r.isCallable bound { method with frame := (s.store.child method.frame).1 }
  -- A class is made, and its name is bound to `nil`.
  declare : ∀ {m : Machine} {declaration : ClassDecl} {parent}, r.Holds m.stock →
    r.isScope m.stock m.current → (∀ k, parent = some k → r.isClass m.stock k) →
    parent.isSome = declaration.superclass.isSome → IsUnreserved declaration.name.text →
    WellFormedMethods declaration.methods →
      r.Allows m.stock (declaration.machineWithin m parent).stock
        ∧ r.isClass (declaration.machineWithin m parent).stock (declaration.value m parent)

variable {r} {s later last : Stock} {value : Value}

/-! ### Moving on -/

theorem Onward.refl (s : Stock) : r.Onward s s where
  scope _ h := h
  callable _ h := h
  ofClass _ h := h
  object _ h := h

theorem Onward.trans (h : r.Onward s later) (hlast : r.Onward later last) : r.Onward s last where
  scope f hf := hlast.scope f (h.scope f hf)
  callable f hf := hlast.callable f (h.callable f hf)
  ofClass c hc := hlast.ofClass c (h.ofClass c hc)
  object o ho := hlast.object o (h.object o ho)

theorem Onward.isValue (h : r.Onward s later) (hvalue : r.isValue s value) :
    r.isValue later value := by
  cases value with
  | function _ f => exact h.callable f hvalue
  | «class» c => exact h.ofClass c hvalue
  | «instance» o => exact h.object o hvalue
  | _ => trivial

theorem Onward.forall_isValue (h : r.Onward s later) {values : List Value}
    (hvalues : ∀ value ∈ values, r.isValue s value) : ∀ value ∈ values, r.isValue later value :=
  fun value hvalue => h.isValue (hvalues value hvalue)

theorem isValue_of_plain (h : value.Plain) : r.isValue s value := by
  cases value <;> trivial

theorem isValue_literal (value : Literal) : r.isValue s value.value := by
  cases value <;> trivial

/-- After a change that is allowed all is in order, if whatever has come to the store is. -/
theorem Allows.holds (h : r.Allows s later) (hs : r.Holds s)
    (hbound : ∀ (f : FrameId) (name : String) (found : Value),
      later.store.local? f name = some found →
        r.isValue later found ∨ s.store.local? f name = some found)
    (hfields : ∀ (o : Instance) (name : String) (found : Value),
      later.store.field? o name = some found →
        r.isValue later found ∨ s.store.field? o name = some found) : r.Holds later where
  shape := h.shape
  bound f name found hfound := by
    rcases hbound f name found hfound with hnew | hold
    · exact hnew
    · exact h.onward.isValue (hs.bound f name found hold)
  fields o name found hfound := by
    rcases hfields o name found hfound with hnew | hold
    · exact hnew
    · exact h.onward.isValue (hs.fields o name found hold)

/-- Runs that keep to the regime come back to their frame. -/
def discipline (r : Regime) : Discipline where
  holds m := r.Holds m.stock
  later m after := r.Onward m.stock after.stock ∧ after.current = m.current
  refl _ := ⟨.refl _, rfl⟩
  trans h hlater := ⟨h.1.trans hlater.1, hlater.2.trans h.2⟩
  permits _ := True

end Regime

theorem FunctionDecl.WellFormed.parts {f : FunctionDecl} (h : f.WellFormed) :
    IsUnreserved f.name.text ∧ (∀ param ∈ f.params, IsUnreserved param.text)
      ∧ WellFormedStatements f.body := by
  rcases f with ⟨name, params, body⟩
  rw [FunctionDecl.WellFormed] at h
  exact h

/-- What a frame binds when a class is made is `nil`, the superclass, or what it bound before. -/
theorem ClassDecl.eq_of_local?_storeWithin {declaration : ClassDecl} {m : Machine}
    {parent : Option ClassValue} {f : FrameId} {name : String} {found : Value}
    (h : (declaration.storeWithin m parent).local? f name = some found) :
    found = .nil ∨ (∃ k, parent = some k ∧ found = .class k)
      ∨ m.store.local? f name = some found := by
  have hbound : ∀ {found : Value}, (m.store.define m.current declaration.name.text .nil).local? f
      name = some found → found = .nil ∨ m.store.local? f name = some found :=
    Store.eq_of_local?_define
  rcases parent with _ | k
  · exact (hbound h).imp_right Or.inr
  · rcases Store.eq_of_local?_define h with rfl | hold
    · exact Or.inr (Or.inl ⟨k, rfl, rfl⟩)
    · rw [Store.local?_child] at hold
      exact (hbound hold).imp_right Or.inr

theorem ClassDecl.field?_storeWithin (declaration : ClassDecl) (m : Machine)
    (parent : Option ClassValue) (o : Instance) (name : String) :
    (declaration.storeWithin m parent).field? o name = m.store.field? o name := by
  cases parent <;> rfl

namespace Run

variable {r : Regime} {m : Machine} {α : Type}

/-! ### Single actions -/

theorem governed_throw {Q : α → Machine → Prop} (hm : r.Holds m.stock) (halt : Halt) :
    Keeps r.discipline (throw halt) m Q :=
  keeps_throw hm trivial

theorem governed_fault {Q : α → Machine → Prop} (hm : r.Holds m.stock) (site : Name)
    (cause : FaultCause) : Keeps r.discipline (fault site cause) m Q :=
  governed_throw hm _

theorem governed_orFault {Q : α → Machine → Prop} (hm : r.Holds m.stock) (site : Name)
    {result : Except FaultCause α} (hQ : ∀ a, result = .ok a → Q a m) :
    Keeps r.discipline (orFault site result) m Q := by
  cases result with
  | error cause => exact governed_fault hm site cause
  | ok a => exact keeps_pure hm (hQ a rfl)

theorem governed_currentFrame (hm : r.Holds m.stock) :
    Keeps r.discipline currentFrame m fun frame after => frame = m.current ∧ after = m :=
  keeps_of_ok rfl hm ⟨.refl _, rfl⟩ ⟨rfl, rfl⟩

theorem governed_hopsOf (hm : r.Holds m.stock) (id : Nat) :
    Keeps r.discipline (hopsOf id) m fun _ after => after = m :=
  keeps_of_ok rfl hm ⟨.refl _, rfl⟩ rfl

/-- What runs in another frame leaves the stock that it would leave there. -/
theorem governed_within {Q : α → Machine → Prop} {f : FrameId} {body : Run α}
    (hbody : Keeps r.discipline body { m with current := f } Q) :
    Keeps r.discipline (within f body) m fun a after =>
      ∃ inner : Machine, Q a inner ∧ inner.stock = after.stock := by
  unfold Keeps at hbody ⊢
  unfold within
  rcases hresult : body { m with current := f } with ⟨a, inner⟩ | ⟨halt, inner⟩
  · rw [hresult] at hbody
    exact ⟨hbody.1, ⟨hbody.2.1.1, rfl⟩, inner, hbody.2.2, rfl⟩
  · rw [hresult] at hbody
    exact ⟨hbody.1, ⟨hbody.2.1.1, rfl⟩, trivial⟩

theorem governed_readAt (hm : r.Holds m.stock) (hops : Nat) (name : String) :
    Keeps r.discipline (readAt hops name) m fun value after =>
      r.isValue m.stock value ∧ after = m := by
  refine keeps_readAt hm (fun _ _ => trivial) fun value hget => ?_
  obtain ⟨owner, -, hlocal⟩ := Store.local?_of_getAt hget
  exact ⟨hm.bound owner name value hlocal, rfl⟩

theorem governed_readGlobal (hm : r.Holds m.stock) (name : Name) :
    Keeps r.discipline (readGlobal name) m fun value after =>
      r.isValue m.stock value ∧ after = m := by
  exact keeps_readGlobal hm trivial fun value hfound => ⟨hm.bound _ _ _ hfound, rfl⟩

theorem governed_read (hm : r.Holds m.stock) (name : Name) (id : Nat) :
    Keeps r.discipline (read name id) m fun value after =>
      r.isValue m.stock value ∧ after = m := by
  unfold read
  refine (governed_hopsOf hm id).bind ?_
  rintro hops _ - - rfl
  cases hops with
  | none => exact governed_readGlobal hm name
  | some hops => exact governed_readAt hm hops name.text

section Lawful

variable (hr : r.Lawful)
include hr

theorem governed_define (hm : r.Holds m.stock) (f : FrameId) {name : String}
    (hname : IsUnreserved name) {value : Value} (hvalue : r.isValue m.stock value) :
    Keeps r.discipline (define f name value) m fun _ _ => True := by
  have hallows := hr.define hm hname hvalue f
  refine keeps_of_ok rfl (hallows.holds hm ?_ fun _ _ _ h => Or.inr h) ⟨hallows.onward, rfl⟩ trivial
  intro g other found h
  refine (Store.eq_of_local?_define h).imp_left ?_
  rintro rfl
  exact hallows.onward.isValue hvalue

theorem governed_child (hm : r.Holds m.stock) {f : FrameId} (hf : r.isScope m.stock f) :
    Keeps r.discipline (child f) m fun frame after => r.isScope after.stock frame := by
  obtain ⟨hallows, hframe⟩ := hr.child hm hf
  refine keeps_of_ok rfl (hallows.holds hm ?_ fun _ _ _ h => Or.inr h) ⟨hallows.onward, rfl⟩ hframe
  intro g name found h
  exact Or.inr ((Store.local?_child m.store f g name).symm.trans h)

theorem governed_functionValue (hm : r.Holds m.stock) {f : Closure}
    (hf : r.isCallable m.stock f) :
    Keeps r.discipline (functionValue f) m fun value after => r.isValue after.stock value := by
  have hallows := hr.identity hm
  have hafter := hallows.holds hm (fun _ _ _ h => Or.inr h) fun _ _ _ h => Or.inr h
  exact keeps_of_ok rfl hafter ⟨hallows.onward, rfl⟩ (hallows.onward.callable f hf)

theorem governed_assignFrom (hm : r.Holds m.stock) (f : FrameId) {name : Name}
    (hname : IsUnreserved name.text) {value : Value} (hvalue : r.isValue m.stock value) :
    Keeps r.discipline (assignFrom f name value) m fun _ _ => True := by
  exact keeps_assignFrom hm trivial fun owner _ => governed_define hr hm owner hname hvalue

theorem governed_assignAt (hm : r.Holds m.stock) (hops : Nat) {name : String}
    (hname : IsUnreserved name) {value : Value} (hvalue : r.isValue m.stock value) :
    Keeps r.discipline (assignAt hops name value) m fun _ _ => True := by
  exact keeps_assignAt hm (fun _ => trivial) fun owner _ =>
    governed_define hr hm owner hname hvalue

theorem governed_assign (hm : r.Holds m.stock) {name : Name} (hname : IsUnreserved name.text)
    (id : Nat) {value : Value} (hvalue : r.isValue m.stock value) :
    Keeps r.discipline (assign name id value) m fun _ _ => True := by
  unfold assign
  refine (governed_hopsOf hm id).bind ?_
  rintro hops _ - - rfl
  cases hops with
  | none => exact governed_assignFrom hr hm _ hname hvalue
  | some hops => exact governed_assignAt hr hm hops hname hvalue

theorem governed_setField (hm : r.Holds m.stock) {o : Instance} (ho : r.isObject m.stock o)
    (name : String) {value : Value} (hvalue : r.isValue m.stock value) :
    Keeps r.discipline (setField o name value) m fun _ _ => True := by
  have hallows := hr.setField hm ho hvalue name
  refine keeps_of_ok rfl (hallows.holds hm (fun _ _ _ h => Or.inr h) ?_) ⟨hallows.onward, rfl⟩
    trivial
  intro owner other found h
  refine (Store.eq_of_field?_setField h).imp_left ?_
  rintro rfl
  exact hallows.onward.isValue hvalue

theorem governed_newInstance (hm : r.Holds m.stock) {c : ClassValue} (hc : r.isClass m.stock c) :
    Keeps r.discipline (newInstance c) m fun o after => r.isObject after.stock o := by
  obtain ⟨hallows, ho⟩ := hr.newInstance hm hc
  refine keeps_of_ok rfl (hallows.holds hm (fun _ _ _ h => Or.inr h) ?_) ⟨hallows.onward, rfl⟩ ho
  intro owner name found h
  exact Or.inr (Store.field?_of_newInstance c h)

/-! ### Methods -/

theorem governed_bindMethod (hm : r.Holds m.stock) {c : ClassValue} (hc : r.isClass m.stock c)
    {name : String} {method : Closure} (hmethod : c.findMethod? name = some method) {o : Instance}
    (ho : r.isObject m.stock o) :
    Keeps r.discipline (bindMethod method o) m fun f after => r.isCallable after.stock f := by
  obtain ⟨hallows, hbound⟩ := hr.bind hm hc hmethod ho
  refine keeps_of_ok (bindMethod_ok method o m) (hallows.holds hm ?_ fun _ _ _ h => Or.inr h)
    ⟨hallows.onward, rfl⟩ hbound
  intro g other found h
  rcases Store.eq_of_local?_define h with rfl | hold
  · exact Or.inl (hallows.onward.object o ho)
  · exact Or.inr ((Store.local?_child m.store method.frame g other).symm.trans hold)

theorem governed_methodOf (hm : r.Holds m.stock) {c : ClassValue} (hc : r.isClass m.stock c)
    {o : Instance} (ho : r.isObject m.stock o) (name : Name) :
    Keeps r.discipline (methodOf c o name) m fun value after => r.isValue after.stock value := by
  unfold methodOf
  rcases hfind : c.findMethod? name.text with _ | method
  · exact governed_fault hm name _
  · refine (governed_bindMethod hr hm hc hfind ho).bind fun f after hafter _ hf => ?_
    exact governed_functionValue hr hafter hf

theorem governed_property (hm : r.Holds m.stock) {o : Instance} (ho : r.isObject m.stock o)
    (name : Name) :
    Keeps r.discipline (property o name) m fun value after => r.isValue after.stock value := by
  unfold property
  refine (keeps_of_ok rfl hm ⟨.refl _, rfl⟩ ⟨rfl, rfl⟩ :
    Keeps r.discipline (field? o name.text) m fun found after =>
      found = m.store.field? o name.text ∧ after = m).bind ?_
  rintro _ m - - ⟨rfl, rfl⟩
  rcases hfield : m.store.field? o name.text with _ | value
  · exact governed_methodOf hr hm (hr.object_class ho) ho name
  · exact keeps_pure hm (hm.fields o name.text value hfield)

theorem governed_superMethod (hm : r.Holds m.stock) (line id : Nat) (name : Name) :
    Keeps r.discipline (superMethod line id name) m fun value after =>
      r.isValue after.stock value := by
  unfold superMethod
  refine (governed_hopsOf hm id).bind ?_
  rintro hops _ - - rfl
  cases hops with
  | none => exact governed_fault hm _ _
  | some hops =>
    refine (governed_readAt hm hops "super").bind ?_
    rintro parent _ - - ⟨hparent, rfl⟩
    cases parent with
    | «class» c =>
      cases hops with
      | zero => exact governed_throw hm _
      | succ inner =>
        refine (governed_readAt hm inner "this").bind ?_
        rintro receiver _ - - ⟨hreceiver, rfl⟩
        cases receiver with
        | «instance» o => exact governed_methodOf hr hm hparent hreceiver name
        | _ => exact governed_fault hm _ _
    | _ => exact governed_fault hm _ _

/-! ### Declarations and frames -/

theorem governed_blockFrame (hm : r.Holds m.stock) (hcurrent : r.isScope m.stock m.current) :
    Keeps r.discipline blockFrame m fun frame after => r.isScope after.stock frame := by
  unfold blockFrame
  refine (governed_currentFrame hm).bind ?_
  rintro _ m - - ⟨rfl, rfl⟩
  exact governed_child hr hm hcurrent

theorem governed_bindParams (frame : FrameId) : ∀ (params : List Name) (args : List Value)
    {m : Machine}, r.Holds m.stock → (∀ param ∈ params, IsUnreserved param.text) →
    (∀ value ∈ args, r.isValue m.stock value) →
    Keeps r.discipline (bindParams frame params args) m fun _ _ => True
  | [], _, _, hm, _, _ => keeps_pure hm trivial
  | _ :: _, [], _, hm, _, _ => keeps_pure hm trivial
  | param :: params, argument :: args, m, hm, hparams, hargs => by
    rw [bindParams]
    obtain ⟨hparam, hparams⟩ := List.forall_mem_cons.mp hparams
    obtain ⟨hargument, hargs⟩ := List.forall_mem_cons.mp hargs
    refine (governed_define hr hm frame hparam hargument).bind fun _ after hafter hlater _ => ?_
    exact governed_bindParams frame params args hafter hparams (hlater.1.forall_isValue hargs)

theorem governed_callFrame (hm : r.Holds m.stock) {f : Closure} {args : List Value}
    (hf : r.isCallable m.stock f) (hargs : ∀ value ∈ args, r.isValue m.stock value) :
    Keeps r.discipline (callFrame f args) m fun frame after => r.isScope after.stock frame := by
  unfold callFrame
  refine (governed_child hr hm (hr.callable_scope hf)).bind ?_
  intro frame middle hmiddle hlater hframe
  refine (governed_bindParams hr frame _ args hmiddle (hr.callable_code hf).parts.2.1
    (hlater.1.forall_isValue hargs)).bind fun _ after hafter hlater _ => ?_
  exact keeps_pure hafter (hlater.1.scope frame hframe)

theorem governed_declareFunction (hm : r.Holds m.stock) (hcurrent : r.isScope m.stock m.current)
    {declaration : FunctionDecl} (hdeclaration : declaration.WellFormed) :
    Keeps r.discipline (declareFunction declaration) m fun _ _ => True := by
  unfold declareFunction
  refine (governed_currentFrame hm).bind ?_
  rintro _ m - - ⟨rfl, rfl⟩
  have hf := hr.function hcurrent hdeclaration
  refine (governed_functionValue hr hm hf).bind fun value after hafter _ hvalue => ?_
  exact governed_define hr hafter _ hdeclaration.parts.1 hvalue

omit hr in
theorem governed_superclassOf (hm : r.Holds m.stock) (superclass : Option Reference) :
    Keeps r.discipline (superclassOf superclass) m fun parent after =>
      after = m ∧ ∀ k, parent = some k → r.isClass m.stock k := by
  cases superclass with
  | none => exact keeps_pure hm ⟨rfl, fun _ h => by cases h⟩
  | some superclass =>
    unfold superclassOf
    refine (governed_read hm superclass.name superclass.id).bind ?_
    rintro value _ - - ⟨hvalue, rfl⟩
    cases value with
    | «class» c => exact keeps_pure hm ⟨rfl, fun found h => by cases h; exact hvalue⟩
    | _ => exact governed_fault hm _ _

/-- What comes behind the superclass is known in closed form, and never fails. -/
theorem governed_declareClass (hm : r.Holds m.stock) (hcurrent : r.isScope m.stock m.current)
    {declaration : ClassDecl} (hname : IsUnreserved declaration.name.text)
    (hmethods : WellFormedMethods declaration.methods) :
    Keeps r.discipline
      (declareClass declaration.name declaration.superclass declaration.methods) m
      fun _ _ => True := by
  have hparent := governed_superclassOf hm declaration.superclass
  unfold Keeps at hparent
  rcases hsuperclass : superclassOf declaration.superclass m with ⟨parent, after⟩ | ⟨halt, after⟩
  · rw [hsuperclass] at hparent
    obtain ⟨-, -, rfl, hclass⟩ := hparent
    have hsome := (superclassOf_ok hsuperclass).2.1
    obtain ⟨hallows, hvalue⟩ := hr.declare hm hcurrent hclass hsome hname hmethods
    have hmade : r.Holds (declaration.machineWithin after parent).stock := by
      refine hallows.holds hm (fun f name found h => ?_) fun o name found h => ?_
      · rcases ClassDecl.eq_of_local?_storeWithin h with rfl | ⟨k, hk, rfl⟩ | hold
        · exact Or.inl trivial
        · exact Or.inl (hallows.onward.ofClass k (hclass k hk))
        · exact Or.inr hold
      · exact Or.inr ((declaration.field?_storeWithin after parent o name).symm.trans h)
    have hassigned := governed_define hr hmade after.current hname
      (show r.isValue _ (.class (declaration.value after parent)) from hvalue)
    exact keeps_of_ok (declareClass_of_ok hsuperclass (hr.scope_lt hcurrent)) hassigned.1
      ⟨hallows.onward.trans hassigned.2.1.1, rfl⟩ trivial
  · rw [hsuperclass] at hparent
    exact keeps_of_error (bind_of_error hsuperclass) hparent.1 hparent.2.1 trivial

end Lawful

theorem governed_write (hm : r.Holds m.stock) (text : String) :
    Keeps r.discipline (write text) m fun _ _ => True := by
  by_cases hfits : m.sink.hasRoom text.toUTF8.size = true
  · exact keeps_of_ok (if_pos hfits) hm ⟨.refl _, rfl⟩ trivial
  · exact keeps_of_error (if_neg hfits) hm ⟨.refl _, rfl⟩ trivial

theorem governed_flush (hm : r.Holds m.stock) :
    Keeps r.discipline flush m fun _ _ => True := by
  by_cases hfails : m.sink.flushFails = true
  · exact keeps_of_error (if_pos hfails) hm ⟨.refl _, rfl⟩ trivial
  · exact keeps_of_ok (if_neg hfails) hm ⟨.refl _, rfl⟩ trivial

theorem governed_clock (hm : r.Holds m.stock) :
    Keeps r.discipline clock m fun value after => r.isValue after.stock value :=
  keeps_of_ok rfl hm ⟨.refl _, rfl⟩ trivial

end Run

end Treewalk
