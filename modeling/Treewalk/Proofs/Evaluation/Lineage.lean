import Treewalk.Proofs.Binding.Mentions
import Treewalk.Proofs.Evaluation.Moments
import Treewalk.Proofs.Evaluation.SoundRuns
import Treewalk.Proofs.Store.Labels

/-!
# Where classes come from

**A class is what the execution of a class declaration left, and its ancestors are what came of
earlier ones.**  So the methods that it finds can be told from these executions, without its
layers: a method is the last one of its name in the first declaration that has one.
-/

namespace Treewalk

open Run

namespace ClassDecl

/-- The method of this name.  The last one counts. -/
def method? (declaration : ClassDecl) (name : String) : Option FunctionDecl :=
  declaration.methods.reverse.find? fun method => method.name.text == name

/-- The frame in which the methods are declared when the declaration is executed in a machine:
    the next frame if there is a superclass, and else the current one. -/
def methodFrame (declaration : ClassDecl) (m : Machine) : FrameId :=
  if declaration.superclass.isSome then ⟨m.store.frames.size⟩ else m.current

/-- The class that the declaration gives when it is executed in a machine. -/
def value (declaration : ClassDecl) (m : Machine) (parent : Option ClassValue) : ClassValue where
  own := ⟨m.identities, declaration.name.text,
    methodTable (declaration.methodFrame m) declaration.methods⟩
  ancestors := (parent.map ClassValue.layers).getD []

/-- The store with the name of the class bound, and with the frame that binds `super` if there is a
    superclass. -/
def storeWithin (declaration : ClassDecl) (m : Machine) (parent : Option ClassValue) : Store :=
  let bound := m.store.define m.current declaration.name.text .nil
  match parent with
  | some parent => (bound.child m.current).2.define (bound.child m.current).1 "super" (.class parent)
  | none => bound

/-- The store behind the declaration. -/
def storeAfter (declaration : ClassDecl) (m : Machine) (parent : Option ClassValue) : Store :=
  (declaration.storeWithin m parent).define m.current declaration.name.text
    (.class (declaration.value m parent))

end ClassDecl

/-! ### Executing a class declaration -/

/-- Reading a reference changes nothing, and what is read is bound in some frame. -/
theorem Run.read_ok {name : Name} {id : Nat} {m after : Machine} {value : Value}
    (h : read name id m = .ok value after) :
    after = m ∧ ∃ f, m.store.local? f name.text = some value := by
  obtain ⟨hops, middle, hhops, hread⟩ := ok_of_bind_eq_ok h
  cases hhops
  rcases hid : m.hops[id]? with _ | hops
  · simp only [hid, readGlobal, Store.get?_globals] at hread
    rcases hfound : m.store.local? Store.globals name.text with _ | found
    · simp only [hfound] at hread
      cases hread
    · simp only [hfound] at hread
      cases hread
      exact ⟨rfl, _, hfound⟩
  · simp only [hid, readAt, Store.getAt] at hread
    rcases howner : m.store.ancestor? m.current hops with _ | owner
    · simp only [howner] at hread
      cases hread
    · rcases hfound : m.store.local? owner name.text with _ | found
      · simp only [howner, hfound] at hread
        cases hread
      · simp only [howner, hfound] at hread
        cases hread
        exact ⟨rfl, _, hfound⟩

/-- A reference that cannot be read leaves everything as it was. -/
theorem Run.read_error {name : Name} {id : Nat} {m after : Machine} {halt : Halt}
    (h : read name id m = .error halt after) : after = m := by
  have hhops : hopsOf id m = .ok m.hops[id]? m := rfl
  rw [read, bind_of_ok hhops] at h
  rcases hid : m.hops[id]? with _ | hops
  · simp only [hid, readGlobal] at h
    split at h <;> cases h
    rfl
  · simp only [hid, readAt] at h
    split at h <;> cases h
    rfl

/-- An assignment binds the name in one frame: the one that the hop count leads to, or the global
    one. -/
theorem Run.assign_ok {name : Name} {id : Nat} {value : Value} {m after : Machine} {u : PUnit}
    (h : assign name id value m = .ok u after) :
    ∃ owner, after = m.mapStore (fun store => store.define owner name.text value)
      ∧ match m.hops[id]? with
        | some hops => m.store.ancestor? m.current hops = some owner
        | none => owner = Store.globals := by
  obtain ⟨hops, middle, hhops, hassign⟩ := ok_of_bind_eq_ok h
  cases hhops
  rcases hid : m.hops[id]? with _ | hops
  · simp only [hid, assignFrom, Store.owner?_globals] at hassign
    by_cases hbound : (m.store.local? Store.globals name.text).isSome
    · simp only [hbound, if_true] at hassign
      cases hassign
      exact ⟨_, rfl, rfl⟩
    · simp only [hbound] at hassign
      cases hassign
  · simp only [hid, assignAt] at hassign
    rcases howner : m.store.ancestor? m.current hops with _ | owner
    · simp only [howner] at hassign
      cases hassign
    · simp only [howner] at hassign
      cases hassign
      exact ⟨owner, rfl, howner⟩

/-- An assignment that cannot be made leaves everything as it was. -/
theorem Run.assign_error {name : Name} {id : Nat} {value : Value} {m after : Machine} {halt : Halt}
    (h : assign name id value m = .error halt after) : after = m := by
  have hhops : hopsOf id m = .ok m.hops[id]? m := rfl
  rw [assign, bind_of_ok hhops] at h
  rcases hid : m.hops[id]? with _ | hops
  · simp only [hid, assignFrom] at h
    split at h <;> cases h
    rfl
  · simp only [hid, assignAt] at h
    split at h <;> cases h
    rfl

/-- Evaluating a superclass changes nothing, and the class is bound in some frame. -/
theorem Run.superclassOf_ok {superclass : Option Reference} {m after : Machine}
    {parent : Option ClassValue} (h : superclassOf superclass m = .ok parent after) :
    after = m ∧ parent.isSome = superclass.isSome
      ∧ ∀ k, parent = some k → ∃ f name, m.store.local? f name = some (.class k) := by
  rcases superclass with _ | superclass
  · cases h
    exact ⟨rfl, rfl, fun k hk => by cases hk⟩
  · obtain ⟨value, middle, hread, hclass⟩ := ok_of_bind_eq_ok h
    obtain ⟨rfl, f, hfound⟩ := read_ok hread
    cases value with
    | «class» parent =>
      cases hclass
      refine ⟨rfl, rfl, fun k hk => ?_⟩
      cases hk
      exact ⟨f, _, hfound⟩
    | _ => cases hclass

theorem Run.superclassOf_error {superclass : Option Reference} {m after : Machine} {halt : Halt}
    (h : superclassOf superclass m = .error halt after) : after = m := by
  rcases superclass with _ | superclass
  · cases h
  · rcases hread : read superclass.name superclass.id m with ⟨value, middle⟩ | ⟨halt, middle⟩
    · obtain ⟨rfl, -⟩ := read_ok hread
      rw [superclassOf, bind_of_ok hread] at h
      cases value <;> cases h <;> rfl
    · rw [superclassOf, bind_of_error hread] at h
      cases h
      exact read_error hread

/-- A name that a frame binds is assigned to in this frame. -/
theorem Run.assignFrom_of_bound {f : FrameId} {name : Name} {m : Machine}
    (h : (m.store.local? f name.text).isSome) (value : Value) :
    assignFrom f name value m = .ok ⟨⟩ { m with store := m.store.define f name.text value } :=
  assignFrom_of_owner (Store.owner?_of_isSome h) value

theorem ClassDecl.grows_storeWithin (declaration : ClassDecl) (m : Machine)
    (parent : Option ClassValue) : m.store.Grows (declaration.storeWithin m parent) := by
  have hbound := Store.Grows.define m.store m.current declaration.name.text .nil
  cases parent with
  | none => exact hbound
  | some parent => exact hbound.trans ((Store.Grows.child _ _).trans (.define _ _ _ _))

theorem ClassDecl.bound_storeWithin {declaration : ClassDecl} {m : Machine}
    (hcurrent : m.current.index < m.store.frames.size) (parent : Option ClassValue) :
    ((declaration.storeWithin m parent).local? m.current declaration.name.text).isSome := by
  have hbound : ((m.store.define m.current declaration.name.text .nil).local? m.current
      declaration.name.text).isSome := by
    rw [Store.local?_define_self hcurrent]
    rfl
  cases parent with
  | none => exact hbound
  | some parent => exact ((Store.Grows.child _ _).trans (.define _ _ _ _)).bound _ _ hbound

section MethodFrame

variable {declaration : ClassDecl} {m : Machine} {parent : Option ClassValue}

theorem ClassDecl.methodFrame_none
    (h : (none : Option ClassValue).isSome = declaration.superclass.isSome) :
    declaration.methodFrame m = m.current :=
  if_neg (by rw [← h]; exact Bool.false_ne_true)

/-- The frame that binds `super` is made when the name of the class is bound. -/
theorem ClassDecl.methodFrame_some {k : ClassValue}
    (h : (some k).isSome = declaration.superclass.isSome) :
    declaration.methodFrame m
      = ((m.store.define m.current declaration.name.text .nil).child m.current).1 := by
  refine (if_pos h.symm).trans (FrameId.ext ?_)
  rw [Store.child_index, Store.size_define]

/-- Of a class declaration, what comes behind its superclass never fails. -/
theorem Run.declareClass_of_ok
    (h : superclassOf declaration.superclass m = .ok parent m)
    (hcurrent : m.current.index < m.store.frames.size) :
    declareClass declaration.name declaration.superclass declaration.methods m
      = .ok ⟨⟩ { m with
          store := declaration.storeAfter m parent
          identities := m.identities + 1 } := by
  obtain ⟨-, hsome, -⟩ := superclassOf_ok h
  have hassign := assignFrom_of_bound
    (m := { m with store := declaration.storeWithin m parent, identities := m.identities + 1 })
    (ClassDecl.bound_storeWithin hcurrent parent) (.class (declaration.value m parent))
  rw [declareClass, bind_of_ok h]
  refine Eq.trans ?_ hassign
  rcases parent with _ | parent
  · rw [ClassDecl.value, ClassDecl.methodFrame_none hsome]
    rfl
  · rw [ClassDecl.value, ClassDecl.methodFrame_some hsome]
    rfl

end MethodFrame

/-! ### The methods of a class -/

/-- The method that a declaration gives in a frame. -/
def Closure.ofMethod (frame : FrameId) (declaration : FunctionDecl) : Closure :=
  ⟨declaration, frame, declaration.isInitializer⟩

theorem getElem?_methodTable (frame : FrameId) (methods : List FunctionDecl) (name : String) :
    (methodTable frame methods)[name]?
      = (methods.reverse.find? fun method => method.name.text == name).map (.ofMethod frame) := by
  suffices h : ∀ before : Std.ExtTreeMap String Closure,
      (methods.foldl (fun table declaration => table.insert declaration.name.text
        (.ofMethod frame declaration)) before)[name]?
        = ((methods.reverse.find? fun method => method.name.text == name).map
          (Closure.ofMethod frame)).or before[name]? by
    have hempty := h ∅
    rw [Std.ExtTreeMap.getElem?_empty, Option.or_none] at hempty
    exact hempty
  induction methods with
  | nil => exact fun before => rfl
  | cons method methods ih =>
    intro before
    rw [List.foldl_cons, ih, List.reverse_cons, List.find?_append, Std.ExtTreeMap.getElem?_insert]
    by_cases hname : method.name.text = name
    · cases methods.reverse.find? _ <;> simp [hname]
    · simp [hname]

/-- The execution of a class declaration has begun in this machine. -/
def Executed (happened : Moment → Prop) (declaration : ClassDecl) (m : Machine) : Prop :=
  ∃ steps, happened
    ⟨.execute (.class declaration.name declaration.superclass declaration.methods), steps + 1, m⟩

/-- The class came of executed declarations.  They are listed with the machines in which their
    execution began: that of the class first, then that of its superclass, and so on. -/
inductive Lineage (happened : Moment → Prop) : ClassValue → List (ClassDecl × Machine) → Prop
  | root {declaration : ClassDecl} {m : Machine} (hexecuted : Executed happened declaration m)
    (hparent : superclassOf declaration.superclass m = .ok none m) :
    Lineage happened (declaration.value m none) [(declaration, m)]
  | derived {declaration : ClassDecl} {m : Machine} {parent : ClassValue}
    {ancestry : List (ClassDecl × Machine)} (hexecuted : Executed happened declaration m)
    (hparent : superclassOf declaration.superclass m = .ok (some parent) m)
    (h : Lineage happened parent ancestry) :
    Lineage happened (declaration.value m (some parent)) ((declaration, m) :: ancestry)

/-- The method of the first declaration that has one, in the frame in which it was declared. -/
def dispatch : List (ClassDecl × Machine) → (name : String) → Option Closure
  | [], _ => none
  | (declaration, m) :: ancestry, name =>
    match declaration.method? name with
    | some method => some (.ofMethod (declaration.methodFrame m) method)
    | none => dispatch ancestry name

theorem ClassDecl.getElem?_value (declaration : ClassDecl) (m : Machine)
    (parent : Option ClassValue) (name : String) :
    (declaration.value m parent).own.methods[name]?
      = (declaration.method? name).map (.ofMethod (declaration.methodFrame m)) :=
  getElem?_methodTable _ _ name

/-- Layers find the methods that the declarations say. -/
theorem Lineage.findMethod? {happened : Moment → Prop} {c : ClassValue}
    {lineage : List (ClassDecl × Machine)} (h : Lineage happened c lineage) (name : String) :
    c.findMethod? name = dispatch lineage name := by
  induction h with
  | @root declaration m _ _ =>
    rw [ClassValue.findMethod?, ClassValue.layers, dispatch, List.findSome?_cons,
      ClassDecl.getElem?_value]
    rcases declaration.method? name with _ | method <;> rfl
  | @derived declaration m parent ancestry _ _ _ ih =>
    rw [ClassValue.findMethod?, ClassValue.layers, dispatch, List.findSome?_cons,
      ClassDecl.getElem?_value]
    rcases declaration.method? name with _ | method
    · exact ih
    · rfl

end Treewalk
