import Treewalk.Machine
import Treewalk.Proofs.Store.Growth

/-!
# Chains of frames

**A name stands for the nearest frame outward that binds it, for reading and for assigning alike.**
The walk by name and the walk by a number of links follow the same chain, so a read by name is a
read by the least number of links after which the name is bound.  A write changes one entry of one
frame.  Which frame is nearest for a name is not changed by it, since a frame that is assigned to
binds the name already.
-/

namespace Treewalk

namespace Store

variable {s later : Store} {f g outer owner : FrameId} {name other : String} {value found : Value}

/-! ### Stores that are built up -/

/-- Something that is done to a store, beginning at a frame. -/
inductive Change where
  | child (f : FrameId)
  | define (f : FrameId) (name : String) (value : Value)
  | assign (f : FrameId) (name : String) (value : Value)
  | assignAt (f : FrameId) (hops : Nat) (name : String) (value : Value)

/-- The frame at which a change begins. -/
def Change.frame : Change → FrameId
  | .child f | .define f _ _ | .assign f _ _ | .assignAt f _ _ _ => f

/-- The store after a change.  A change that fails leaves it as it is. -/
def change (s : Store) : Change → Store
  | .child f => (s.child f).2
  | .define f name value => s.define f name value
  | .assign f name value => (s.assign? f name value).getD s
  | .assignAt f hops name value => (s.assignAt f hops name value).toOption.getD s

/-- A store that was built up from one frame by changes that begin at frames it has. -/
inductive Built : Store → Prop
  | initial : Built .initial
  | change {s : Store} (h : Built s) (c : Change) (hc : c.frame.index < s.frames.size) :
    Built (s.change c)

/-! ### Links between frames -/

/-- A number of links lead outward from `f` to `g`. -/
inductive Out (s : Store) : FrameId → Nat → FrameId → Prop
  | here (f : FrameId) : Out s f 0 f
  | link {f outer g : FrameId} {d : Nat} {frame : Frame} (hframe : s.frames[f.index]? = some frame)
    (houter : frame.enclosing = some outer) (h : Out s outer d g) : Out s f (d + 1) g

/-- `owner` is the first frame outward from `f` that binds the name, after `d` links. -/
structure Nearest (s : Store) (f : FrameId) (name : String) (d : Nat) (owner : FrameId) : Prop where
  out : s.Out f d owner
  bound : (s.local? owner name).isSome
  first : ∀ k < d, ∀ g, s.Out f k g → s.local? g name = none

/-- All that is changed is one entry of one frame: it has this value now. -/
structure Rebound (s later : Store) (owner : FrameId) (name : String) (value : Value) : Prop where
  size : later.frames.size = s.frames.size
  fields : later.fields = s.fields
  out : ∀ f d g, later.Out f d g ↔ s.Out f d g
  entry : later.local? owner name = some value
  others : ∀ g other, g ≠ owner ∨ other ≠ name → later.local? g other = s.local? g other

/-- A name has been assigned to: it is seen from all frames for which it meant this entry, and
    nothing else is seen. -/
structure Assigned (s later : Store) (owner : FrameId) (name : String) (value : Value) : Prop
    extends s.Rebound later owner name value where
  seen : ∀ g d, s.Nearest g name d owner → later.get? g name = some value
  unseen : ∀ g other, (other = name → ∀ d, ¬ s.Nearest g name d owner) →
    later.get? g other = s.get? g other

/-- Links lead to older frames. -/
def Linked (s : Store) : Prop :=
  ∀ (f : FrameId) (frame : Frame) (outer : FrameId),
    s.frames[f.index]? = some frame → frame.enclosing = some outer → outer.index < f.index

theorem linked_initial : Linked .initial := by
  intro f frame outer hframe houter
  rw [initial, List.getElem?_toArray] at hframe
  rcases hindex : f.index with _ | index
  · rw [hindex] at hframe
    cases hframe
    cases houter
  · rw [hindex] at hframe
    cases hframe

theorem Linked.define (hs : s.Linked) (f : FrameId) (name : String) (value : Value) :
    (s.define f name value).Linked := by
  intro g frame outer hframe houter
  simp only [Store.define, Array.getElem?_modify] at hframe
  split at hframe
  · rcases hold : s.frames[g.index]? with _ | old
    · rw [hold] at hframe
      cases hframe
    · rw [hold] at hframe
      cases hframe
      exact hs g old outer hold houter
  · exact hs g frame outer hframe houter

theorem Linked.child (hs : s.Linked) (hf : f.index < s.frames.size) : (s.child f).2.Linked := by
  intro g frame outer hframe houter
  simp only [Store.child, Array.getElem?_push] at hframe
  split at hframe
  · rename_i hindex
    cases hframe
    cases houter
    rw [hindex]
    exact hf
  · exact hs g frame outer hframe houter

theorem Linked.change (hs : s.Linked) {c : Change} (hc : c.frame.index < s.frames.size) :
    (s.change c).Linked := by
  cases c with
  | child f => exact hs.child hc
  | define f name value => exact hs.define f name value
  | assign f name value =>
    simp only [Store.change, assign?]
    split
    · exact hs.define _ name value
    · exact hs
  | assignAt f hops name value =>
    simp only [Store.change, assignAt]
    split
    · exact hs.define _ name value
    · exact hs

theorem Built.linked (h : s.Built) : s.Linked := by
  induction h with
  | initial => exact linked_initial
  | change _ c hc ih => exact ih.change hc

theorem Linked.enclosing?_iff (hs : s.Linked) :
    s.enclosing? f = some outer
      ↔ ∃ frame, s.frames[f.index]? = some frame ∧ frame.enclosing = some outer := by
  unfold enclosing?
  constructor
  · intro h
    split at h
    · rename_i frame hframe
      split at h
      · rename_i around haround
        split at h
        · cases h
          exact ⟨frame, hframe, haround⟩
        · cases h
      · cases h
    · cases h
  · rintro ⟨frame, hframe, houter⟩
    simp only [hframe, houter, if_pos (hs f frame outer hframe houter)]

/-! ### Counted links -/

theorem ancestor?_succ (s : Store) (f : FrameId) (d : Nat) :
    s.ancestor? f (d + 1) = (s.enclosing? f).bind fun outer => s.ancestor? outer d := by
  rw [ancestor?]
  rcases s.enclosing? f with _ | outer <;> rfl

/-- One link leads to the frame around. -/
theorem ancestor?_one (s : Store) (f : FrameId) : s.ancestor? f 1 = s.enclosing? f := by
  rw [ancestor?_succ]
  rcases s.enclosing? f with _ | outer <;> rfl

/-- A number of links can be walked in two parts. -/
theorem ancestor?_add (s : Store) (f : FrameId) (a b : Nat) :
    s.ancestor? f (a + b) = (s.ancestor? f a).bind fun g => s.ancestor? g b := by
  induction a generalizing f with
  | zero =>
    rw [Nat.zero_add]
    rfl
  | succ a ih =>
    rw [Nat.succ_add, ancestor?_succ, ancestor?_succ]
    rcases s.enclosing? f with _ | outer
    · rfl
    · exact ih outer

/-- The walk by a number of links finds what the links lead to. -/
theorem Linked.ancestor?_iff (hs : s.Linked) {d : Nat} :
    s.ancestor? f d = some g ↔ s.Out f d g := by
  induction d generalizing f with
  | zero =>
    constructor
    · intro h
      cases h
      exact .here _
    · intro h
      cases h
      rfl
  | succ d ih =>
    rw [ancestor?_succ, Option.bind_eq_some_iff]
    constructor
    · rintro ⟨outer, houter, hout⟩
      obtain ⟨frame, hframe, hlink⟩ := hs.enclosing?_iff.mp houter
      exact .link hframe hlink (ih.mp hout)
    · intro h
      cases h with
      | link hframe hlink hout =>
        exact ⟨_, hs.enclosing?_iff.mpr ⟨_, hframe, hlink⟩, ih.mpr hout⟩

@[simp]
theorem ancestor?_define (s : Store) (f g : FrameId) (name : String) (value : Value) (d : Nat) :
    (s.define f name value).ancestor? g d = s.ancestor? g d := by
  induction d generalizing g with
  | zero => rfl
  | succ d ih =>
    rw [ancestor?_succ, ancestor?_succ, enclosing?_define]
    rcases s.enclosing? g with _ | outer
    · rfl
    · exact ih outer

/-! ### The frame that owns a name -/

/-- The frame that a number of hops leads to owns a name if no frame before it binds the name. -/
theorem owner?_of_ancestor? {d : Nat} (howner : s.ancestor? f d = some owner)
    (hbound : (s.local? owner name).isSome)
    (hbefore : ∀ k < d, ∀ g, s.ancestor? f k = some g → s.local? g name = none) :
    s.owner? f name = some owner := by
  induction d generalizing f with
  | zero =>
    cases howner
    exact owner?_of_isSome hbound
  | succ d ih =>
    rcases houter : s.enclosing? f with _ | outer
    · simp [ancestor?, houter] at howner
    · rw [ancestor?, houter] at howner
      rw [owner?, hbefore 0 (Nat.succ_pos d) f rfl]
      simp only [Option.isSome_none, Bool.false_eq_true, if_false]
      split
      · rename_i around haround
        cases houter.symm.trans haround
        refine ih howner fun k hk g hg => hbefore (k + 1) (Nat.succ_lt_succ hk) g ?_
        rw [ancestor?, houter]
        exact hg
      · rename_i hnone
        cases houter.symm.trans hnone

/-- The owner of a name binds it, some links outward, and no frame before it does. -/
theorem ancestor?_of_owner? (h : s.owner? f name = some owner) :
    (s.local? owner name).isSome
      ∧ ∃ d, s.ancestor? f d = some owner
        ∧ ∀ k < d, ∀ g, s.ancestor? f k = some g → s.local? g name = none := by
  fun_induction owner? s f name with
  | case1 f hbound =>
    cases h
    exact ⟨hbound, 0, rfl, fun k hk => absurd hk (Nat.not_lt_zero k)⟩
  | case2 f hbound outer houter ih =>
    obtain ⟨howner, d, hancestor, hbefore⟩ := ih h
    refine ⟨howner, d + 1, by rw [ancestor?_succ, houter]; exact hancestor, fun k hk g hg => ?_⟩
    rcases k with _ | k
    · cases hg
      simpa using hbound
    · rw [ancestor?_succ, houter] at hg
      exact hbefore k (Nat.lt_of_succ_lt_succ hk) g hg
  | case3 f hbound hnone => cases h

theorem Linked.owner?_iff (hs : s.Linked) :
    s.owner? f name = some owner ↔ ∃ d, s.Nearest f name d owner := by
  constructor
  · intro h
    obtain ⟨hbound, d, hancestor, hbefore⟩ := ancestor?_of_owner? h
    exact ⟨d, hs.ancestor?_iff.mp hancestor, hbound,
      fun k hk g hg => hbefore k hk g (hs.ancestor?_iff.mpr hg)⟩
  · rintro ⟨d, h⟩
    exact owner?_of_ancestor? (hs.ancestor?_iff.mpr h.out) h.bound
      fun k hk g hg => h.first k hk g (hs.ancestor?_iff.mp hg)

/-- Without an owner no frame of the chain binds the name. -/
theorem local?_of_owner?_eq_none {d : Nat} (h : s.owner? f name = none)
    (hg : s.ancestor? f d = some g) : s.local? g name = none := by
  fun_induction owner? s f name generalizing d with
  | case1 f hbound => cases h
  | case2 f hbound outer houter ih =>
    rcases d with _ | d
    · cases hg
      simpa using hbound
    · rw [ancestor?_succ, houter] at hg
      exact ih h hg
  | case3 f hbound hnone =>
    rcases d with _ | d
    · cases hg
      simpa using hbound
    · rw [ancestor?_succ, hnone] at hg
      cases hg

/-- Stores with the same links in which the same frames bind a name agree on its owner. -/
theorem owner?_congr (hlinks : ∀ g, later.enclosing? g = s.enclosing? g)
    (hbound : ∀ g, (later.local? g name).isSome = (s.local? g name).isSome) (f : FrameId) :
    later.owner? f name = s.owner? f name := by
  fun_induction owner? s f name with
  | case1 f h =>
    rw [owner?, hbound, if_pos h]
  | case2 f h outer houter ih =>
    rw [owner?, hbound, if_neg h]
    split
    · rename_i around haround
      cases houter.symm.trans ((hlinks f).symm.trans haround)
      exact ih
    · rename_i hnone
      cases houter.symm.trans ((hlinks f).symm.trans hnone)
  | case3 f h houter =>
    rw [owner?, hbound, if_neg h]
    split
    · rename_i around haround
      cases houter.symm.trans ((hlinks f).symm.trans haround)
    · rfl

/-! ### Reading -/

theorem get?_of_owner? (howner : s.owner? f name = some owner) :
    s.get? f name = s.local? owner name := by
  rw [get?, howner]

theorem get?_of_owner?_eq_none (h : s.owner? f name = none) : s.get? f name = none := by
  rw [get?, h]

theorem Linked.getAt_of_nearest (hs : s.Linked) {d : Nat} (h : s.Nearest f name d owner)
    (hlocal : s.local? owner name = some found) : s.getAt f d name = .ok found :=
  getAt_of_local? (hs.ancestor?_iff.mpr h.out) hlocal

/-- A name has a value if and only if some frame of the chain binds it. -/
theorem Linked.isSome_get?_iff (hs : s.Linked) :
    (s.get? f name).isSome ↔ ∃ d g, s.Out f d g ∧ (s.local? g name).isSome := by
  constructor
  · intro h
    rcases howner : s.owner? f name with _ | owner
    · rw [get?_of_owner?_eq_none howner] at h
      cases h
    · obtain ⟨d, hnearest⟩ := hs.owner?_iff.mp howner
      exact ⟨d, owner, hnearest.out, hnearest.bound⟩
  · rintro ⟨d, g, hout, hbound⟩
    rcases howner : s.owner? f name with _ | owner
    · rw [local?_of_owner?_eq_none howner (hs.ancestor?_iff.mpr hout)] at hbound
      cases hbound
    · rw [get?_of_owner? howner]
      exact (ancestor?_of_owner? howner).1

/-- Its value is the one that is found by the least number of links. -/
theorem Linked.get?_iff (hs : s.Linked) :
    s.get? f name = some found
      ↔ ∃ d owner, s.Nearest f name d owner ∧ s.getAt f d name = .ok found := by
  constructor
  · intro h
    rcases howner : s.owner? f name with _ | owner
    · rw [get?_of_owner?_eq_none howner] at h
      cases h
    · rw [get?_of_owner? howner] at h
      obtain ⟨d, hnearest⟩ := hs.owner?_iff.mp howner
      exact ⟨d, owner, hnearest, hs.getAt_of_nearest hnearest h⟩
  · rintro ⟨d, owner, hnearest, hget⟩
    rw [get?_of_owner? (hs.owner?_iff.mpr ⟨d, hnearest⟩)]
    rcases hlocal : s.local? owner name with _ | value
    · have hbound := hnearest.bound
      rw [hlocal] at hbound
      cases hbound
    · cases (hs.getAt_of_nearest hnearest hlocal).symm.trans hget
      rfl

/-! ### Writing -/

theorem Linked.rebound_define (hs : s.Linked) (hf : f.index < s.frames.size) (name : String)
    (value : Value) : s.Rebound (s.define f name value) f name value where
  size := size_define s f name value
  fields := rfl
  out _ _ _ := by
    rw [← hs.ancestor?_iff, ← (hs.define f name value).ancestor?_iff, ancestor?_define]
  entry := local?_define_self hf name value
  others _ _ h := local?_define_of_ne h s value

/-- Giving a name another value where it is bound changes no owner. -/
theorem owner?_define (hbound : (s.local? owner name).isSome) (g : FrameId) (other : String)
    (value : Value) : (s.define owner name value).owner? g other = s.owner? g other := by
  refine owner?_congr (fun g => enclosing?_define s owner g name value) (fun g => ?_) g
  by_cases hsame : g = owner ∧ other = name
  · obtain ⟨rfl, rfl⟩ := hsame
    rw [local?_define_self (lt_size_of_local? (Option.get_mem hbound)), hbound]
    rfl
  · rw [local?_define_of_ne (not_and_or.mp hsame)]

theorem Linked.assigned_define (hs : s.Linked) (hbound : (s.local? owner name).isSome)
    (value : Value) : s.Assigned (s.define owner name value) owner name value where
  toRebound := hs.rebound_define (lt_size_of_local? (Option.get_mem hbound)) name value
  seen g d h := by
    have howner := hs.owner?_iff.mpr ⟨d, h⟩
    rw [get?_of_owner? ((owner?_define hbound g name value).trans howner)]
    exact local?_define_self (lt_size_of_local? (Option.get_mem hbound)) name value
  unseen g other h := by
    rcases howner : s.owner? g other with _ | around
    · rw [get?_of_owner?_eq_none howner,
        get?_of_owner?_eq_none ((owner?_define hbound g other value).trans howner)]
    · rw [get?_of_owner? howner,
        get?_of_owner? ((owner?_define hbound g other value).trans howner)]
      refine local?_define_of_ne (not_and_or.mp ?_) s value
      rintro ⟨rfl, rfl⟩
      obtain ⟨d, hnearest⟩ := hs.owner?_iff.mp howner
      exact h rfl d hnearest

theorem isSome_assign? (s : Store) (f : FrameId) (name : String) (value : Value) :
    (s.assign? f name value).isSome ↔ (s.get? f name).isSome := by
  rcases howner : s.owner? f name with _ | owner
  · rw [get?_of_owner?_eq_none howner, assign?, howner]
    rfl
  · rw [get?_of_owner? howner, (ancestor?_of_owner? howner).1, assign?, howner]
    rfl

theorem Linked.assign? (hs : s.Linked) (h : s.assign? f name value = some later) :
    ∃ d owner, s.Nearest f name d owner ∧ s.Assigned later owner name value := by
  unfold Store.assign? at h
  rcases howner : s.owner? f name with _ | owner
  · rw [howner] at h
    cases h
  · rw [howner] at h
    cases h
    obtain ⟨d, hnearest⟩ := hs.owner?_iff.mp howner
    exact ⟨d, owner, hnearest, hs.assigned_define hnearest.bound value⟩

theorem Linked.lt_size_of_out (hs : s.Linked) {d : Nat} (h : s.Out f d g)
    (hf : f.index < s.frames.size) : g.index < s.frames.size := by
  induction h with
  | here => exact hf
  | link hframe houter _ ih => exact ih (Nat.lt_trans (hs _ _ _ hframe houter) hf)

theorem Linked.assignAt (hs : s.Linked) (hf : f.index < s.frames.size) {hops : Nat}
    (h : s.assignAt f hops name value = .ok later) :
    ∃ g, s.Out f hops g ∧ s.Rebound later g name value := by
  unfold Store.assignAt at h
  rcases hancestor : s.ancestor? f hops with _ | g
  · rw [hancestor] at h
    cases h
  · rw [hancestor] at h
    cases h
    have hout := hs.ancestor?_iff.mp hancestor
    exact ⟨g, hout, hs.rebound_define (hs.lt_size_of_out hout hf) name value⟩

/-- In every store that is built up, a frame reads a name in the nearest frame that binds it, which
    is the one with the least number of links, and assigns to it there.  Every write changes one
    entry; an assignment is seen from just the frames for which the name means this entry.  Links
    can be counted in two parts. -/
theorem Built.chain_laws (hs : s.Built) (hf : f.index < s.frames.size) (name : String)
    (value : Value) :
    ((s.get? f name).isSome ↔ ∃ d g, s.Out f d g ∧ (s.local? g name).isSome)
      ∧ (∀ found, s.get? f name = some found
        ↔ ∃ d owner, s.Nearest f name d owner ∧ s.getAt f d name = .ok found)
      ∧ ((s.assign? f name value).isSome ↔ (s.get? f name).isSome)
      ∧ (∀ later, s.assign? f name value = some later →
        ∃ d owner, s.Nearest f name d owner ∧ s.Assigned later owner name value)
      ∧ (s.assign? f name value = none → ∀ (m : Machine) (line : Nat), m.store = s →
        Run.assignFrom f ⟨name, line⟩ value m
          = .error (.failure (.fault ⟨⟨name, line⟩, .undefinedVariable name⟩)) m)
      ∧ s.Rebound (s.define f name value) f name value
      ∧ (∀ hops later, s.assignAt f hops name value = .ok later →
        ∃ g, s.Out f hops g ∧ s.Rebound later g name value)
      ∧ (∀ d g, s.ancestor? f d = some g ↔ s.Out f d g)
      ∧ ∀ a b, s.ancestor? f (a + b) = (s.ancestor? f a).bind fun g => s.ancestor? g b := by
  have hlinked := hs.linked
  refine ⟨hlinked.isSome_get?_iff, fun found => hlinked.get?_iff, isSome_assign? s f name value,
    fun later h => hlinked.assign? h, ?_, hlinked.rebound_define hf name value,
    fun hops later h => hlinked.assignAt hf h, fun d g => hlinked.ancestor?_iff,
    ancestor?_add s f⟩
  rintro hnone m line rfl
  rw [Run.assignFrom_eq, hnone]

/-- A variable that shadows a global one. -/
theorem chain_laws_shadowed :
    ∃ (s : Store) (f : FrameId), s.Built ∧ f.index < s.frames.size
      ∧ ∃ d owner, s.Nearest f "x" d owner ∧ s.getAt f d "x" = .ok (.bool true) := by
  have hglobal : (initial.change (.define globals "x" .nil)).Built :=
    Built.initial.change _ (by decide)
  have hchild : ((initial.change (.define globals "x" .nil)).change (.child globals)).Built :=
    hglobal.change _ (by decide)
  have hsize : 1 < (Store.change _ (.child globals)).frames.size :=
    Nat.lt_of_lt_of_eq (by decide) (size_child (initial.change (.define globals "x" .nil)) _).symm
  have hbuilt := hchild.change (.define ⟨1⟩ "x" (.bool true)) hsize
  have hf : 1 < (Store.change _ (.define ⟨1⟩ "x" (.bool true))).frames.size :=
    Nat.lt_of_lt_of_eq hsize (size_define _ _ _ _).symm
  have hlocal := local?_define_self hsize "x" (.bool true)
  have hget : (Store.change _ (.define ⟨1⟩ "x" (.bool true))).get? ⟨1⟩ "x" = some (.bool true) :=
    (get?_of_owner? (owner?_of_isSome (Option.isSome_iff_exists.mpr ⟨_, hlocal⟩))).trans hlocal
  exact ⟨_, ⟨1⟩, hbuilt, hf, ((hbuilt.chain_laws hf "x" .nil).2.1 _).mp hget⟩

end Store

end Treewalk
