import Treewalk.Proofs.Evaluation.Ages
import Treewalk.Proofs.Session.Governing
import Treewalk.Proofs.Session.Restoration
import Treewalk.Proofs.Store.Chains

/-!
# A class is declared as a whole or not at all

**A class declaration that fails leaves everything as it was.**  It can only fail while its
superclass is evaluated, and nothing has been changed by then.  One that succeeds binds one name in
one frame, to a class that is new.  The name is bound before the methods are made, so that the class
can be assigned to it afterwards, whatever the name stood for before.
-/

namespace Treewalk

/-- The class that a value is, or that it is an instance of. -/
def Value.class? : Value → Option ClassValue
  | .class c => some c
  | .instance o => some o.ofClass
  | _ => none

/-- Some variable or some field holds the class, or an instance of it. -/
inductive Store.HoldsClass (s : Store) (c : ClassValue) : Prop
  | bound {f : FrameId} {name : String} {value : Value} (h : s.local? f name = some value)
    (hc : value.class? = some c)
  | field {o : Instance} {name : String} {value : Value} (h : s.field? o name = some value)
    (hc : value.class? = some c)

/-- The classes that a store holds are aged. -/
theorem Regime.Holds.aged {s : Stock} (hs : Regime.aged.Holds s) {c : ClassValue}
    (h : s.store.HoldsClass c) : c.Aged s := by
  have haged : ∀ {value : Value}, Regime.aged.isValue s value → value.class? = some c →
      c.Aged s := by
    intro value hvalue hc
    cases value with
    | «class» k =>
      cases hc
      exact hvalue
    | «instance» o =>
      cases hc
      exact hvalue
    | _ => cases hc
  cases h with
  | bound h hc => exact haged (hs.bound _ _ _ h) hc
  | field h hc => exact haged (hs.fields _ _ _ h) hc

/-! ### The superclass -/

namespace Run

/-- The superclass is the class that its reference is read as. -/
theorem read_of_superclassOf {superclass : Reference} {m : Machine} {parent : Option ClassValue}
    (h : superclassOf (some superclass) m = .ok parent m) :
    ∃ k, parent = some k ∧ read superclass.name superclass.id m = .ok (.class k) m := by
  obtain ⟨value, middle, hread, hclass⟩ := ok_of_bind_eq_ok h
  obtain ⟨rfl, -⟩ := read_ok hread
  cases value with
  | «class» k =>
    cases hclass
    exact ⟨k, rfl, hread⟩
  | _ => cases hclass

/-! ### Making the class -/

/-- All of a class declaration but the assignment at its end. -/
def makeClass (name : Name) (superclass : Option Reference) (methods : List FunctionDecl) :
    Run ClassValue := do
  let parent ← superclassOf superclass
  define (← currentFrame) name.text .nil
  let enclosing ← currentFrame
  enterSuper parent
  let table := methodTable (← currentFrame) methods
  switchTo enclosing
  newClass name.text parent table

theorem declareClass_eq_makeClass (name : Name) (superclass : Option Reference)
    (methods : List FunctionDecl) :
    declareClass name superclass methods = (do
      let value ← makeClass name superclass methods
      assignFrom (← currentFrame) name (.class value)) := by
  rw [← declareClassInside_eq]
  simp only [declareClassInside, makeClass, bind_assoc]

/-- With its superclass evaluated, the class is made. -/
theorem makeClass_of_ok {declaration : ClassDecl} {m : Machine} {parent : Option ClassValue}
    (h : superclassOf declaration.superclass m = .ok parent m) :
    makeClass declaration.name declaration.superclass declaration.methods m
      = .ok (declaration.value m parent) (declaration.machineWithin m parent) := by
  obtain ⟨-, hsome, -⟩ := superclassOf_ok h
  rw [makeClass, bind_of_ok h]
  rcases parent with _ | parent
  · rw [ClassDecl.value, ClassDecl.methodFrame_none hsome]
    rfl
  · rw [ClassDecl.value, ClassDecl.methodFrame_some hsome]
    rfl

end Run

/-! ### What is changed -/

namespace ClassDecl

variable {declaration : ClassDecl} {m : Machine} {parent : Option ClassValue} {f : FrameId}

/-- An older frame is as it is when the name of the class is bound. -/
theorem same_storeWithin (hf : f.index < m.store.frames.size) :
    (m.store.define m.current declaration.name.text .nil).Same
      (declaration.storeWithin m parent) (.frame f) := by
  rcases parent with _ | k
  · rfl
  · have hlt : f.index < (m.store.define m.current declaration.name.text .nil).frames.size := by
      rwa [Store.size_define]
    exact (Store.frames_define_of_ne (Store.ne_child_of_lt hlt _) _ _ _).trans
      (Store.frames_child_of_lt hlt _)

theorem frames_storeAfter (hf : f.index < m.store.frames.size) (hne : f ≠ m.current) :
    (declaration.storeAfter m parent).frames[f.index]? = m.store.frames[f.index]? := by
  have hsame : (declaration.storeWithin m parent).frames[f.index]? = _ := same_storeWithin hf
  rw [storeAfter, Store.frames_define_of_ne hne, hsame, Store.frames_define_of_ne hne]

theorem enclosing_storeAfter (hf : f.index < m.store.frames.size) :
    (declaration.storeAfter m parent).frames[f.index]?.map Frame.enclosing
      = m.store.frames[f.index]?.map Frame.enclosing := by
  have hsame : (declaration.storeWithin m parent).frames[f.index]? = _ := same_storeWithin hf
  rw [storeAfter, Store.enclosing_define, hsame, Store.enclosing_define]

theorem local?_storeAfter_of_ne (hf : f.index < m.store.frames.size) {other : String}
    (hother : other ≠ declaration.name.text) :
    (declaration.storeAfter m parent).local? f other = m.store.local? f other := by
  rw [storeAfter, Store.local?_define_of_ne (Or.inr hother), (same_storeWithin hf).local?,
    Store.local?_define_of_ne (Or.inr hother)]

theorem local?_storeAfter (hcurrent : m.current.index < m.store.frames.size) :
    (declaration.storeAfter m parent).local? m.current declaration.name.text
      = some (.class (declaration.value m parent)) := by
  refine Store.local?_define_self ?_ _ _
  exact Nat.lt_of_lt_of_le hcurrent (declaration.grows_storeWithin m parent).size

/-- The methods see the class under its name, also from the frame around `super`, which binds
    nothing else. -/
theorem get?_methodFrame (hcurrent : m.current.index < m.store.frames.size)
    (hparent : parent.isSome = declaration.superclass.isSome)
    (hname : IsUnreserved declaration.name.text) :
    (declaration.storeAfter m parent).get? (declaration.methodFrame m) declaration.name.text
      = some (.class (declaration.value m parent)) := by
  have hlocal : (declaration.storeAfter m parent).local? m.current declaration.name.text = _ :=
    local?_storeAfter hcurrent
  have hbound : ((declaration.storeAfter m parent).local? m.current declaration.name.text).isSome :=
    Option.isSome_iff_exists.mpr ⟨_, hlocal⟩
  rcases parent with _ | k
  · rw [methodFrame_none hparent]
    exact (Store.get?_of_owner? (Store.owner?_of_isSome hbound)).trans hlocal
  · rw [methodFrame_some hparent]
    have hsize : m.current.index
        < (m.store.define m.current declaration.name.text .nil).frames.size := by
      rwa [Store.size_define]
    have hne := Store.ne_child_of_lt hsize m.current
    have houter : (declaration.storeAfter m (some k)).ancestor?
        ((m.store.define m.current declaration.name.text .nil).child m.current).1 1
          = some m.current := by
      rw [storeAfter, Store.ancestor?_define, storeWithin, Store.ancestor?_define,
        Store.ancestor?_succ, Store.enclosing?_child_self hsize]
      rfl
    have hinner : (declaration.storeAfter m (some k)).local?
        ((m.store.define m.current declaration.name.text .nil).child m.current).1
          declaration.name.text = none := by
      rw [storeAfter, Store.local?_define_of_ne (Or.inl hne.symm), storeWithin,
        Store.local?_define_of_ne (Or.inr hname.ne_super), Store.local?_child]
      exact Store.local?_eq_none_of_size_le (Nat.le_refl _)
    refine (Store.get?_of_owner? (Store.owner?_of_ancestor? houter hbound ?_)).trans hlocal
    intro d hd g hg
    cases Nat.lt_one_iff.mp hd
    cases hg
    exact hinner

end ClassDecl

/-! ### The whole declaration -/

namespace Run

/-- What a class declaration has done that was executed in `m`, has left `after`, and has made the
    class `c`. -/
structure Declares (declaration : ClassDecl) (m after : Machine) (c : ClassValue) : Prop where
  -- The output, the current frame and the hop counts are as they were.
  outside : after = { m with store := after.store, identities := m.identities + 1 }
  fields : after.store.fields = m.store.fields
  frames : ∀ f : FrameId, f.index < m.store.frames.size → f ≠ m.current →
    after.store.frames[f.index]? = m.store.frames[f.index]?
  enclosing : after.store.frames[m.current.index]?.map Frame.enclosing
    = m.store.frames[m.current.index]?.map Frame.enclosing
  others : ∀ other, other ≠ declaration.name.text →
    after.store.local? m.current other = m.store.local? m.current other
  bound : after.store.local? m.current declaration.name.text = some (.class c)
  -- The class is new, derived from what the superclass was before, and all its methods see it.
  name : c.own.name = declaration.name.text
  identity : c.own.identity = m.identities
  fresh : ∀ k, m.store.HoldsClass k → ∀ layer ∈ k.layers, layer.identity ≠ c.own.identity
  superclass : match declaration.superclass with
    | some superclass => ∃ k, read superclass.name superclass.id m = .ok (.class k) m
      ∧ c.ancestors = k.layers
    | none => c.ancestors = []
  methods : ∃ frame, after.store.get? frame declaration.name.text = some (.class c)
    ∧ ∀ name, c.own.methods[name]? = (declaration.method? name).map (.ofMethod frame)

variable {declaration : ClassDecl} {m after : Machine}

theorem declares_of_superclassOf {parent : Option ClassValue}
    (h : superclassOf declaration.superclass m = .ok parent m)
    (hcurrent : m.current.index < m.store.frames.size) (hm : Regime.aged.Holds m.stock)
    (hname : IsUnreserved declaration.name.text) :
    Declares declaration m
      { m with store := declaration.storeAfter m parent, identities := m.identities + 1 }
      (declaration.value m parent) where
  outside := rfl
  fields := by cases parent <;> rfl
  frames _ hf hne := ClassDecl.frames_storeAfter hf hne
  enclosing := ClassDecl.enclosing_storeAfter hcurrent
  others _ hother := ClassDecl.local?_storeAfter_of_ne hcurrent hother
  bound := ClassDecl.local?_storeAfter hcurrent
  name := rfl
  identity := rfl
  fresh _ hk layer hlayer := Nat.ne_of_lt (hm.aged hk layer hlayer).1
  superclass := by
    rcases hsuperclass : declaration.superclass with _ | superclass
    · rw [hsuperclass] at h
      cases h
      rfl
    · rw [hsuperclass] at h
      obtain ⟨k, rfl, hread⟩ := read_of_superclassOf h
      exact ⟨k, hread, rfl⟩
  methods := ⟨declaration.methodFrame m,
    ClassDecl.get?_methodFrame hcurrent (superclassOf_ok h).2.1 hname,
    declaration.getElem?_value m parent⟩

/-- A class declaration either stops where its superclass is evaluated, and leaves everything as it
    was, or declares the class. -/
theorem declareClass_cases (hcurrent : m.current.index < m.store.frames.size)
    (hm : Regime.aged.Holds m.stock) (hname : IsUnreserved declaration.name.text) :
    (∃ halt, declareClass declaration.name declaration.superclass declaration.methods m
        = .error halt m)
      ∨ ∃ after c, declareClass declaration.name declaration.superclass declaration.methods m
          = .ok ⟨⟩ after ∧ Declares declaration m after c := by
  rcases hparent : superclassOf declaration.superclass m with ⟨parent, middle⟩ | ⟨halt, middle⟩
  · obtain ⟨rfl, -⟩ := superclassOf_ok hparent
    exact Or.inr ⟨_, _, declareClass_of_ok hparent hcurrent,
      declares_of_superclassOf hparent hcurrent hm hname⟩
  · cases superclassOf_error hparent
    exact Or.inl ⟨halt, bind_of_error hparent⟩

/-- Where the class has been made, its name is bound in the current frame, so that the class can be
    assigned to it. -/
theorem assignFrom_of_makeClass {value : ClassValue}
    (h : makeClass declaration.name declaration.superclass declaration.methods m = .ok value after)
    (hcurrent : m.current.index < m.store.frames.size) :
    ∃ last, assignFrom after.current declaration.name (.class value) after = .ok ⟨⟩ last := by
  rcases hparent : superclassOf declaration.superclass m with ⟨parent, middle⟩ | ⟨halt, middle⟩
  · obtain ⟨rfl, -⟩ := superclassOf_ok hparent
    cases h.symm.trans (makeClass_of_ok hparent)
    exact ⟨_, assignFrom_of_bound (ClassDecl.bound_storeWithin hcurrent parent) _⟩
  · rw [makeClass, bind_of_error hparent] at h
    cases h

end Run

open Run

namespace Session

variable {outside : Outside} {history : List Request} {moment : Moment}

/-- Wherever something happens in a session, every class declaration is executed as a whole or leaves
    everything as it was.  Its name is an identifier, as the grammar has it.  The last step, which
    assigns the class to its name, never fails. -/
theorem class_declared_whole (h : Happens outside history moment) {declaration : ClassDecl}
    (hname : IsUnreserved declaration.name.text) :
    (∀ steps halt after,
        execute steps (.class declaration.name declaration.superclass declaration.methods)
          moment.machine = .error halt after → after = moment.machine)
      ∧ (∀ steps flow after,
        execute steps (.class declaration.name declaration.superclass declaration.methods)
          moment.machine = .ok flow after →
        flow = .normal ∧ ∃ c, Declares declaration moment.machine after c)
      ∧ (declareClass declaration.name declaration.superclass declaration.methods = do
          let value ← makeClass declaration.name declaration.superclass declaration.methods
          assignFrom (← currentFrame) declaration.name (.class value))
      ∧ ∀ value after,
        makeClass declaration.name declaration.superclass declaration.methods moment.machine
          = .ok value after →
        ∃ last, assignFrom after.current declaration.name (.class value) after = .ok ⟨⟩ last := by
  have hm := (h.governed Regime.lawful_aged).machine
  have hcases := declareClass_cases hm.scope hm.holds hname
  refine ⟨fun steps halt after hrun => ?_, fun steps flow after hrun => ?_,
    declareClass_eq_makeClass _ _ _,
    fun value after hmade => assignFrom_of_makeClass hmade hm.scope⟩
  · rcases steps with _ | steps
    · cases hrun
      rfl
    · rw [execute] at hrun
      rcases hcases with ⟨_, hdeclare⟩ | ⟨_, _, hdeclare, -⟩
      · rw [bind_of_error hdeclare] at hrun
        cases hrun
        rfl
      · rw [bind_of_ok hdeclare] at hrun
        cases hrun
  · rcases steps with _ | steps
    · cases hrun
    · rw [execute] at hrun
      rcases hcases with ⟨_, hdeclare⟩ | ⟨_, c, hdeclare, hdeclares⟩
      · rw [bind_of_error hdeclare] at hrun
        cases hrun
      · rw [bind_of_ok hdeclare] at hrun
        cases hrun
        exact ⟨rfl, c, hdeclares⟩

/-- The declaration of a class that is to be derived from the clock, which is none. -/
def clockwork : ClassDecl :=
  ⟨⟨"Clockwork", 1⟩, some ⟨⟨"clock", 1⟩, 0⟩, []⟩

/-- The machine in which an empty source begins. -/
def beforeNothing : Machine :=
  (start .unlimited).machine.learn (Program.bindings []).hops

theorem class_declared_whole_clockwork :
    Happens .unlimited [.run 9 ""] ⟨.program [], 9, beforeNothing⟩
      ∧ IsUnreserved clockwork.name.text
      ∧ (∃ halt, execute 9 (.class clockwork.name clockwork.superclass clockwork.methods)
        beforeNothing = .error halt beforeNothing)
      ∧ ∃ after c, execute 9 (.class clockwork.name none clockwork.methods) beforeNothing
          = .ok .normal after
        ∧ Declares { clockwork with superclass := none } beforeNothing after c := by
  have hh : Happens .unlimited [.run 9 ""] ⟨.program [], 9, beforeNothing⟩ :=
    ⟨[], _, [], _, rfl, .run (reads_empty 0) 9, .refl⟩
  have hname : IsUnreserved clockwork.name.text := rfl
  have hother : IsUnreserved { clockwork with superclass := none }.name.text := rfl
  refine ⟨hh, hname, ?_, ?_⟩
  · have hfails : (match execute 9 (.class clockwork.name clockwork.superclass clockwork.methods)
        beforeNothing with
      | .ok _ _ => false
      | .error _ _ => true) = true := by decide +kernel
    rcases hrun : execute 9 (.class clockwork.name clockwork.superclass clockwork.methods)
        beforeNothing with ⟨flow, after⟩ | ⟨halt, after⟩
    · rw [hrun] at hfails
      cases hfails
    · cases (class_declared_whole hh hname).1 9 halt after hrun
      exact ⟨halt, rfl⟩
  · have hsucceeds : (match execute 9 (.class clockwork.name none clockwork.methods)
        beforeNothing with
      | .ok _ _ => true
      | .error _ _ => false) = true := by decide +kernel
    rcases hrun : execute 9 (.class clockwork.name none clockwork.methods)
        beforeNothing with ⟨flow, after⟩ | ⟨halt, after⟩
    · obtain ⟨rfl, c, hdeclares⟩ := (class_declared_whole hh hother).2.1 9 flow after hrun
      exact ⟨after, c, rfl, hdeclares⟩
    · rw [hrun] at hsucceeds
      cases hsucceeds

end Session

end Treewalk
