import Treewalk.Proofs.Evaluation.Ages
import Treewalk.Proofs.Evaluation.GovernedRuns
import Treewalk.Proofs.Store.Chains

/-!
# Receivers of methods

**Where `super` is bound there is a class, and one frame further inside `this` is an instance.**  The
frame that binds `super` is made for the methods of a class and for nothing else.  No code runs in it:
a method gets out of its class only by being bound to an instance, in a frame of its own that holds
the instance as `this`, and the body of the method runs inside that one.

Nothing of this is due to hop counts.  `this` and `super` are reserved words, so that an assignment
whose hop count leads to one of these frames adds a name to it and leaves the two as they are.
-/

namespace Treewalk

/-! ### Reserved names in frames -/

namespace Store

variable {s later : Store} {f g outer : FrameId}

/-- The frame binds `this` to an instance. -/
def HasReceiver (s : Store) (f : FrameId) : Prop :=
  ∃ o, s.local? f "this" = some (.instance o)

/-- The frame is there, and is none that was made for the methods of a class. -/
structure IsOrdinary (s : Store) (f : FrameId) : Prop where
  lt_size : f.index < s.frames.size
  unbound : s.local? f "super" = none

/-- Only classes are bound as `super`, and every frame inside a frame that binds `super` has a
    receiver. -/
structure Receiving (s : Store) : Prop where
  isClass : ∀ (f : FrameId) (value : Value), s.local? f "super" = some value →
    ∃ c, value = .class c
  receiver : ∀ f outer : FrameId, s.enclosing? f = some outer → (s.local? outer "super").isSome →
    s.HasReceiver f

/-- Old frames lead where they led, and bind `this` and `super` as they did. -/
structure KeepsReserved (s later : Store) : Prop where
  grows : s.Grows later
  this : ∀ f : FrameId, f.index < s.frames.size → later.local? f "this" = s.local? f "this"
  super : ∀ f : FrameId, f.index < s.frames.size → later.local? f "super" = s.local? f "super"

namespace KeepsReserved

variable {middle : Store}

theorem of_frames_eq (h : s.frames = later.frames) : s.KeepsReserved later where
  grows := .of_frames_eq h
  this _ _ := local?_congr h
  super _ _ := local?_congr h

theorem trans (h : s.KeepsReserved middle) (hlater : middle.KeepsReserved later) :
    s.KeepsReserved later where
  grows := h.grows.trans hlater.grows
  this f hf := by rw [hlater.this f (Nat.lt_of_lt_of_le hf h.grows.size), h.this f hf]
  super f hf := by rw [hlater.super f (Nat.lt_of_lt_of_le hf h.grows.size), h.super f hf]

/-- An identifier is neither of the two. -/
theorem define (s : Store) (f : FrameId) {name : String} (hname : IsUnreserved name)
    (value : Value) : s.KeepsReserved (s.define f name value) where
  grows := .define s f name value
  this _ _ := local?_define_of_ne (Or.inr hname.ne_this.symm) s value
  super _ _ := local?_define_of_ne (Or.inr hname.ne_super.symm) s value

theorem child (s : Store) (f : FrameId) : s.KeepsReserved (s.child f).2 where
  grows := .child s f
  this g _ := local?_child s f g "this"
  super g _ := local?_child s f g "super"

/-- A new frame may bind either of the two. -/
theorem childDefine (s : Store) (f : FrameId) (name : String) (value : Value) :
    s.KeepsReserved ((s.child f).2.define (s.child f).1 name value) where
  grows := (Grows.child s f).trans (.define _ _ name value)
  this g hg := by rw [local?_define_of_ne (Or.inl (ne_child_of_lt hg f)), local?_child]
  super g hg := by rw [local?_define_of_ne (Or.inl (ne_child_of_lt hg f)), local?_child]

theorem hasReceiver (h : s.KeepsReserved later) (hf : s.HasReceiver f) : later.HasReceiver f := by
  obtain ⟨o, ho⟩ := hf
  exact ⟨o, (h.this f (lt_size_of_local? ho)).trans ho⟩

theorem isOrdinary (h : s.KeepsReserved later) (hf : s.IsOrdinary f) : later.IsOrdinary f where
  lt_size := Nat.lt_of_lt_of_le hf.lt_size h.grows.size
  unbound := (h.super f hf.lt_size).trans hf.unbound

/-- Old frames are as they should be, so only the new ones have to be looked at.  A frame lies inside
    an older one. -/
theorem receiving (h : s.KeepsReserved later) (hs : s.Receiving)
    (hclass : ∀ (f : FrameId) (value : Value), s.frames.size ≤ f.index →
      later.local? f "super" = some value → ∃ c, value = .class c)
    (hreceiver : ∀ f outer : FrameId, s.frames.size ≤ f.index → later.enclosing? f = some outer →
      (later.local? outer "super").isSome → later.HasReceiver f) : later.Receiving where
  isClass f value hfound := by
    by_cases hf : f.index < s.frames.size
    · exact hs.isClass f value ((h.super f hf).symm.trans hfound)
    · exact hclass f value (Nat.le_of_not_lt hf) hfound
  receiver f outer houter hbound := by
    by_cases hf : f.index < s.frames.size
    · -- Around an old frame there are older ones only, so that it was as it should be before.
      have hold : s.enclosing? f = some outer := (h.grows.enclosing f hf).symm.trans houter
      rw [h.super outer (Nat.lt_trans (enclosing?_lt hold) hf)] at hbound
      exact h.hasReceiver (hs.receiver f outer hold hbound)
    · exact hreceiver f outer (Nat.le_of_not_lt hf) houter hbound

/-- Nothing has to be looked at where no frame is new. -/
theorem receiving_of_size_eq (h : s.KeepsReserved later) (hs : s.Receiving)
    (hsize : later.frames.size = s.frames.size) : later.Receiving := by
  refine h.receiving hs (fun f value hf hfound => ?_) fun f outer hf houter => ?_
  · have hlt := lt_size_of_local? hfound
    omega
  · have hlt := lt_size_of_enclosing? houter
    omega

/-- Where one frame has been made, that is the one. -/
theorem receiving_of_child (h : s.KeepsReserved later) (hs : s.Receiving)
    (hsize : later.frames.size = (s.child f).2.frames.size)
    (hclass : ∀ value, later.local? (s.child f).1 "super" = some value → ∃ c, value = .class c)
    (hreceiver : ∀ outer, later.enclosing? (s.child f).1 = some outer →
      (later.local? outer "super").isSome → later.HasReceiver (s.child f).1) :
    later.Receiving := by
  refine h.receiving hs (fun g value hg hfound => ?_) fun g outer hg houter => ?_
  · cases eq_child_of_le hg (hsize ▸ lt_size_of_local? hfound)
    exact hclass value hfound
  · cases eq_child_of_le hg (hsize ▸ lt_size_of_enclosing? houter)
    exact hreceiver outer houter

end KeepsReserved

namespace Receiving

/-- A frame may be made in every ordinary frame. -/
theorem child (hs : s.Receiving) (hf : s.IsOrdinary f) :
    (s.child f).2.Receiving ∧ (s.child f).2.IsOrdinary (s.child f).1 := by
  have hkeeps := KeepsReserved.child s f
  have hnew := local?_child_self s f "super"
  refine ⟨hkeeps.receiving_of_child hs rfl (fun value hfound => ?_) fun outer houter hbound => ?_,
    child_lt_size s f, hnew⟩
  · rw [hnew] at hfound
    cases hfound
  · rw [enclosing?_child_self hf.lt_size] at houter
    cases houter
    rw [local?_child, hf.unbound] at hbound
    cases hbound

/-- In any frame one may be made that has a receiver. -/
theorem bind (hs : s.Receiving) (f : FrameId) (o : Instance) :
    let bound := (s.child f).2.define (s.child f).1 "this" (.instance o)
    bound.Receiving ∧ bound.IsOrdinary (s.child f).1 ∧ bound.HasReceiver (s.child f).1 := by
  intro bound
  have hkeeps := KeepsReserved.childDefine s f "this" (.instance o)
  have hsize : bound.frames.size = (s.child f).2.frames.size := size_define _ _ _ _
  have hreceiver : bound.HasReceiver (s.child f).1 := ⟨o, Run.local?_childDefine s f "this" _⟩
  have hnew : bound.local? (s.child f).1 "super" = none := by
    rw [local?_define_of_ne (Or.inr (by decide)), local?_child_self]
  refine ⟨hkeeps.receiving_of_child hs hsize (fun value hfound => ?_) fun _ _ _ => hreceiver,
    ⟨hsize ▸ child_lt_size s f, hnew⟩, hreceiver⟩
  rw [hnew] at hfound
  cases hfound

/-- In an ordinary frame one may be made that binds `super` to a class.  Nothing lies inside it
    yet. -/
theorem derive (hs : s.Receiving) (hf : s.IsOrdinary f) (c : ClassValue) :
    ((s.child f).2.define (s.child f).1 "super" (.class c)).Receiving := by
  have hkeeps := KeepsReserved.childDefine s f "super" (.class c)
  refine hkeeps.receiving_of_child hs (size_define _ _ _ _) (fun value hfound => ?_)
    fun outer houter hbound => ?_
  · rw [Run.local?_childDefine] at hfound
    cases hfound
    exact ⟨c, rfl⟩
  · rw [enclosing?_define, enclosing?_child_self hf.lt_size] at houter
    cases houter
    rw [hkeeps.super f hf.lt_size, hf.unbound] at hbound
    cases hbound

end Receiving

end Store

/-! ### The regime -/

/-- The store is receiving.  Code runs in ordinary frames, and an initializer was bound to an
    instance. -/
def Regime.receiving : Regime where
  shape s := s.store.Receiving
  isScope s f := s.store.IsOrdinary f
  isCallable s f := f.declaration.WellFormed ∧ s.store.IsOrdinary f.frame
    ∧ (f.isInitializer = true → s.store.HasReceiver f.frame)
  isClass s c := c.Aged s
  isObject s o := o.ofClass.Aged s

theorem Regime.receiving_allows {s later : Stock} (hkeeps : s.store.KeepsReserved later.store)
    (hidentities : s.identities ≤ later.identities) (hshape : later.store.Receiving) :
    Regime.receiving.Allows s later where
  shape := hshape
  onward :=
    { scope := fun _ h => hkeeps.isOrdinary h
      callable := fun _ h => ⟨h.1, hkeeps.isOrdinary h.2.1,
        fun hinit => hkeeps.hasReceiver (h.2.2 hinit)⟩
      ofClass := fun _ h => h.mono hkeeps.grows.size hidentities
      object := fun _ h => ClassValue.Aged.mono h hkeeps.grows.size hidentities }

/-- Before the first program nothing is bound as `super`. -/
theorem Store.receiving_initial (outside : Outside) :
    (Machine.initial outside).store.Receiving ∧ (Machine.initial outside).store.IsOrdinary globals := by
  have hunbound : ∀ f, (Machine.initial outside).store.local? f "super" = none := by
    intro f
    refine (local?_define_of_ne (Or.inr (by decide)) Store.initial (.native .clock)).trans ?_
    rcases hindex : f.index with _ | index <;> simp [local?, initial, hindex]
  refine ⟨⟨fun f value h => ?_, fun f outer _ h => ?_⟩, ?_, hunbound globals⟩
  · rw [hunbound f] at h
    cases h
  · rw [hunbound outer] at h
    cases h
  · exact (Regime.lawful_aged.initial outside).2

theorem ClassDecl.keepsReserved_storeWithin {declaration : ClassDecl} {m : Machine}
    (hname : IsUnreserved declaration.name.text) (parent : Option ClassValue) :
    m.store.KeepsReserved (declaration.storeWithin m parent) := by
  have hbound := Store.KeepsReserved.define m.store m.current hname .nil
  cases parent with
  | none => exact hbound
  | some k => exact hbound.trans (.childDefine _ _ "super" (.class k))

theorem ClassDecl.receiving_storeWithin {declaration : ClassDecl} {m : Machine}
    (hm : m.store.Receiving) (hcurrent : m.store.IsOrdinary m.current)
    (hname : IsUnreserved declaration.name.text) (parent : Option ClassValue) :
    (declaration.storeWithin m parent).Receiving := by
  have hkeeps := Store.KeepsReserved.define m.store m.current hname .nil
  have hbound := hkeeps.receiving_of_size_eq hm (Store.size_define _ _ _ _)
  cases parent with
  | none => exact hbound
  | some k => exact hbound.derive (hkeeps.isOrdinary hcurrent) k

theorem Regime.lawful_receiving : Regime.receiving.Lawful where
  scope_lt h := h.lt_size
  callable_code h := h.1
  callable_scope h := h.2.1
  object_class h := h
  initial := Store.receiving_initial
  define {s name value} hs hname _ f := by
    have hkeeps := Store.KeepsReserved.define s.store f hname value
    exact receiving_allows hkeeps (Nat.le_refl _)
      (hkeeps.receiving_of_size_eq hs.shape (Store.size_define _ _ _ _))
  child {s f} hs hf := by
    obtain ⟨hshape, hframe⟩ := hs.shape.child hf
    exact ⟨receiving_allows (.child s.store f) (Nat.le_refl _) hshape, hframe⟩
  identity hs := receiving_allows (.of_frames_eq rfl) (Nat.le_succ _) hs.shape
  function hf hdeclaration := ⟨hdeclaration, hf, nofun⟩
  newInstance {s c} hs hc := by
    have hkeeps : s.store.KeepsReserved (s.store.newInstance c).2 := .of_frames_eq rfl
    exact ⟨receiving_allows hkeeps (Nat.le_refl _) (hkeeps.receiving_of_size_eq hs.shape rfl),
      hc.mono (Nat.le_refl _) (Nat.le_refl _)⟩
  setField {s o value} hs _ _ name := by
    have hkeeps : s.store.KeepsReserved (s.store.setField o name value) := .of_frames_eq rfl
    exact receiving_allows hkeeps (Nat.le_refl _) (hkeeps.receiving_of_size_eq hs.shape rfl)
  bind {s c o name method} hs hc hmethod _ := by
    -- The frame of the method may be one that binds `super`: no code runs before there is this one.
    obtain ⟨hshape, hframe, hreceiver⟩ := hs.shape.bind method.frame o
    exact ⟨receiving_allows (.childDefine _ _ _ _) (Nat.le_refl _) hshape,
      (hc.findMethod? hmethod).1, hframe, fun _ => hreceiver⟩
  declare {m declaration parent} hm hcurrent haged hparent hname hmethods :=
    ⟨receiving_allows (ClassDecl.keepsReserved_storeWithin hname parent) (Nat.le_succ _)
        (ClassDecl.receiving_storeWithin hm.shape hcurrent hname parent),
      ClassDecl.aged_value hcurrent.lt_size hparent haged hmethods⟩

/-! ### What methods find -/

namespace Machine.Governed

variable {m : Machine}

/-- Whatever number of hops leads to `super`, it is not zero, it leads to a class, and with one hop
    less there is the receiver. -/
theorem super_received (hm : m.Governed Regime.receiving) {hops : Nat} {value : Value}
    (h : m.store.getAt m.current hops "super" = .ok value) :
    ∃ inner frame c o, hops = inner + 1 ∧ value = .class c
      ∧ m.store.ancestor? m.current inner = some frame
      ∧ m.store.local? frame "this" = some (.instance o) := by
  have hshape : m.store.Receiving := hm.holds.shape
  have hcurrent : m.store.IsOrdinary m.current := hm.scope
  obtain ⟨owner, howner, hlocal⟩ := Store.local?_of_getAt h
  obtain ⟨c, rfl⟩ := hshape.isClass owner value hlocal
  cases hops with
  | zero =>
    cases howner
    rw [hcurrent.unbound] at hlocal
    cases hlocal
  | succ inner =>
    rw [Store.ancestor?_add] at howner
    obtain ⟨frame, hframe, houter⟩ := Option.bind_eq_some_iff.mp howner
    rw [Store.ancestor?_one] at houter
    have hbound : (m.store.local? owner "super").isSome := by rw [hlocal]; rfl
    obtain ⟨o, ho⟩ := hshape.receiver frame owner houter hbound
    exact ⟨inner, frame, c, o, rfl, rfl, hframe, ho⟩

end Machine.Governed

/-- Behind the body of an initializer its frame still holds the receiver. -/
theorem Moment.Governed.initializer_received {f : Closure} {args : List Value} {n : Nat}
    {m entered after : Machine} {frame : FrameId} {flow : Flow}
    (h : Moment.Governed Regime.receiving ⟨.invoke f args, n, m⟩) (hinit : f.isInitializer = true)
    (hframe : Run.callFrame f args m = .ok frame entered) {k : Nat}
    (hbody : Run.within frame (Run.executeAll k f.declaration.body) entered = .ok flow after) :
    after.store.HasReceiver f.frame := by
  obtain ⟨⟨hf, hargs⟩, hm⟩ := h
  obtain ⟨hentered, hlater, hscope⟩ :=
    (Run.governed_callFrame Regime.lawful_receiving hm.holds hf hargs).of_ok hframe
  have hinside : Machine.Governed Regime.receiving { entered with current := frame } :=
    ⟨hentered, hscope⟩
  have hkeeps := Run.governed_executeAll Regime.lawful_receiving k f.declaration.body hinside
    hf.1.parts.2.2
  obtain ⟨-, hlater', -⟩ := (Run.governed_within hkeeps).of_ok hbody
  exact (hlater'.1.callable f (hlater.1.callable f hf)).2.2 hinit

end Treewalk
