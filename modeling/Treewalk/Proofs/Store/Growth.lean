import Mathlib.Logic.Basic
import Treewalk.Proofs.Binding.Placement
import Treewalk.Store

/-!
# Frames only gain names

**Whatever happens to a store, old frames lead where they led before and still bind what they
bound.**  So a chain of frames that fits the scopes around a place in the source goes on to fit
them.  A frame fits a scope when it binds every name that is ready there; it may bind more, for
a scope may gain names behind the place where a function was declared.
-/

namespace Treewalk

theorem FrameId.ext {f g : FrameId} (h : f.index = g.index) : f = g := by
  cases f
  cases g
  cases h
  rfl

namespace Store

variable {s middle later : Store} {f g outer : FrameId} {name other : String} {value : Value}

/-! ### Sizes and lookups -/

@[simp]
theorem size_define (s : Store) (f : FrameId) (name : String) (value : Value) :
    (s.define f name value).frames.size = s.frames.size := by
  simp [define]

@[simp]
theorem size_child (s : Store) (f : FrameId) :
    (s.child f).2.frames.size = s.frames.size + 1 := by
  simp [child]

theorem child_index (s : Store) (f : FrameId) : (s.child f).1.index = s.frames.size :=
  rfl

/-- A definition leaves the other frames as they are. -/
theorem frames_define_of_ne (h : g ≠ f) (s : Store) (name : String) (value : Value) :
    (s.define f name value).frames[g.index]? = s.frames[g.index]? := by
  have hindex : f.index ≠ g.index := fun heq => h (FrameId.ext heq.symm)
  simp only [define, Array.getElem?_modify, if_neg hindex]

/-- A definition moves no frame. -/
theorem enclosing_define (s : Store) (f : FrameId) (name : String) (value : Value) (i : Nat) :
    ((s.define f name value).frames[i]?).map Frame.enclosing
      = (s.frames[i]?).map Frame.enclosing := by
  simp only [define, Array.getElem?_modify]
  by_cases hi : f.index = i
  · rw [if_pos hi, Option.map_map]
    rfl
  · rw [if_neg hi]

/-- A new frame leaves the older ones as they are. -/
theorem frames_child_of_lt (h : g.index < s.frames.size) (f : FrameId) :
    (s.child f).2.frames[g.index]? = s.frames[g.index]? := by
  rw [child, Array.getElem?_push_lt h, Array.getElem?_eq_getElem h]

/-- An older frame is not the new one. -/
theorem ne_child_of_lt (h : g.index < s.frames.size) (f : FrameId) : g ≠ (s.child f).1 := by
  rintro rfl
  exact Nat.lt_irrefl _ h

/-- Of the frames that are there when one has been made, only that one is new. -/
theorem eq_child_of_le (hf : s.frames.size ≤ f.index)
    (hlt : f.index < (s.child g).2.frames.size) : f = (s.child g).1 := by
  refine FrameId.ext ?_
  rw [size_child] at hlt
  rw [child_index]
  omega

theorem child_lt_size (s : Store) (f : FrameId) :
    (s.child f).1.index < (s.child f).2.frames.size := by
  rw [size_child, child_index]
  exact Nat.lt_succ_self _

@[simp]
theorem frames_newInstance (s : Store) (c : ClassValue) :
    (s.newInstance c).2.frames = s.frames :=
  rfl

@[simp]
theorem frames_setField (s : Store) (o : Instance) (name : String) (value : Value) :
    (s.setField o name value).frames = s.frames :=
  rfl

theorem lt_size_of_local? (h : s.local? f name = some value) : f.index < s.frames.size := by
  unfold local? at h
  by_cases hlt : f.index < s.frames.size
  · exact hlt
  · rw [Array.getElem?_eq_none (Nat.le_of_not_lt hlt)] at h
    cases h

theorem lt_size_of_enclosing? (h : s.enclosing? f = some outer) : f.index < s.frames.size := by
  unfold enclosing? at h
  by_cases hlt : f.index < s.frames.size
  · exact hlt
  · rw [Array.getElem?_eq_none (Nat.le_of_not_lt hlt)] at h
    cases h

theorem local?_congr (h : s.frames = later.frames) : later.local? f name = s.local? f name := by
  unfold local?
  rw [h]

theorem enclosing?_congr (h : s.frames = later.frames) : later.enclosing? f = s.enclosing? f := by
  unfold enclosing?
  rw [h]

/-- A lookup after a definition finds the new value or what was there. -/
theorem eq_of_local?_define {found : Value} (h : (s.define f name value).local? g other = some found) :
    found = value ∨ s.local? g other = some found := by
  by_cases hsame : g = f ∧ other = name
  · obtain ⟨rfl, rfl⟩ := hsame
    have hlt : g.index < s.frames.size := by simpa using lt_size_of_local? h
    rw [local?_define_self hlt] at h
    exact Or.inl (Option.some.inj h).symm
  · rw [local?_define_of_ne (not_and_or.mp hsame)] at h
    exact Or.inr h

/-- A new frame binds nothing that an old one would not. -/
theorem local?_eq_none_of_size_le (h : s.frames.size ≤ f.index) : s.local? f name = none := by
  unfold local?
  rw [Array.getElem?_eq_none h]

/-- A new frame binds nothing yet. -/
theorem local?_child_self (s : Store) (f : FrameId) (name : String) :
    (s.child f).2.local? (s.child f).1 name = none := by
  rw [local?_child]
  exact local?_eq_none_of_size_le (Nat.le_refl _)

/-- What is bound a number of steps outward is found there. -/
theorem getAt_of_local? {hops : Nat} (howner : s.ancestor? f hops = some outer)
    (hlocal : s.local? outer name = some value) : s.getAt f hops name = .ok value := by
  simp only [getAt, howner, hlocal]

/-- What is found a number of steps outward is bound there. -/
theorem local?_of_getAt {hops : Nat} (h : s.getAt f hops name = .ok value) :
    ∃ owner, s.ancestor? f hops = some owner ∧ s.local? owner name = some value := by
  unfold getAt at h
  split at h
  · rename_i owner howner
    split at h
    · rename_i found hfound
      cases h
      exact ⟨owner, howner, hfound⟩
    · cases h
  · cases h

/-- A field of an instance that there was before. -/
theorem field?_of_newInstance (c : ClassValue) {o : Instance} {found : Value}
    (h : (s.newInstance c).2.field? o other = some found) : s.field? o other = some found := by
  simp only [field?, newInstance, Array.getElem?_push] at h ⊢
  by_cases hindex : o.index = s.fields.size
  · simp [hindex] at h
  · simpa [hindex] using h

/-- A field is what was set or what was there. -/
theorem eq_of_field?_setField {o owner : Instance} {found : Value}
    (h : (s.setField o name value).field? owner other = some found) :
    found = value ∨ s.field? owner other = some found := by
  simp only [field?, setField, Array.getElem?_modify] at h ⊢
  by_cases hindex : o.index = owner.index
  · rw [if_pos hindex] at h
    rcases hfields : s.fields[owner.index]? with _ | fields
    · simp [hfields] at h
    · simp only [hfields, Option.map_some, Std.ExtTreeMap.getElem?_insert] at h
      split at h
      · exact Or.inl (Option.some.inj h).symm
      · exact Or.inr h
  · rw [if_neg hindex] at h
    exact Or.inr h

/-! ### The global frame -/

theorem enclosing?_globals (s : Store) : s.enclosing? globals = none := by
  rcases houter : s.enclosing? globals with _ | outer
  · rfl
  · exact absurd (enclosing?_lt houter) (Nat.not_lt_zero _)

/-- Around the global frame there is none. -/
theorem owner?_globals (s : Store) (name : String) :
    s.owner? globals name = if (s.local? globals name).isSome then some globals else none := by
  unfold owner?
  split
  · rfl
  · split
    · rename_i outer houter
      rw [enclosing?_globals] at houter
      cases houter
    · rfl

theorem get?_globals (s : Store) (name : String) : s.get? globals name = s.local? globals name := by
  unfold get?
  rw [owner?_globals]
  rcases hlocal : s.local? globals name with _ | value
  · rfl
  · simp [hlocal]

/-- A frame that binds a name owns it. -/
theorem owner?_of_isSome (h : (s.local? f name).isSome) : s.owner? f name = some f := by
  unfold owner?
  rw [if_pos h]

/-! ### Growth -/

/-- Old frames keep their place and the names that they bind. -/
structure Grows (s later : Store) : Prop where
  size : s.frames.size ≤ later.frames.size
  enclosing : ∀ f : FrameId, f.index < s.frames.size → later.enclosing? f = s.enclosing? f
  bound : ∀ (f : FrameId) (name : String), (s.local? f name).isSome → (later.local? f name).isSome

namespace Grows

theorem refl (s : Store) : s.Grows s where
  size := Nat.le_refl _
  enclosing _ _ := rfl
  bound _ _ h := h

theorem trans (h : s.Grows middle) (hlater : middle.Grows later) : s.Grows later where
  size := Nat.le_trans h.size hlater.size
  enclosing f hf := by
    rw [hlater.enclosing f (Nat.lt_of_lt_of_le hf h.size), h.enclosing f hf]
  bound f name hbound := hlater.bound f name (h.bound f name hbound)

theorem of_frames_eq (h : s.frames = later.frames) : s.Grows later where
  size := Nat.le_of_eq (by rw [h])
  enclosing _ _ := enclosing?_congr h
  bound _ _ hbound := by rw [local?_congr h]; exact hbound

theorem define (s : Store) (f : FrameId) (name : String) (value : Value) :
    s.Grows (s.define f name value) where
  size := by simp
  enclosing _ _ := by simp
  bound g other hbound := by
    by_cases hsame : g = f ∧ other = name
    · obtain ⟨rfl, rfl⟩ := hsame
      obtain ⟨found, hfound⟩ := Option.isSome_iff_exists.mp hbound
      rw [local?_define_self (lt_size_of_local? hfound)]
      rfl
    · rw [local?_define_of_ne (not_and_or.mp hsame)]
      exact hbound

theorem child (s : Store) (f : FrameId) : s.Grows (s.child f).2 where
  size := by simp
  enclosing _ hg := enclosing?_child_of_lt hg f
  bound _ _ hbound := by rw [local?_child]; exact hbound

end Grows

/-! ### Frames that fit scopes -/

/-- From a frame outward, the frames bind what is ready in the scopes, up to the global frame. -/
def Fits (s : Store) : FrameId → List Scope → Prop
  | f, [] => f = globals
  | f, scope :: scopes =>
    (∀ name, scope[name]? = some .defined → (s.local? f name).isSome)
      ∧ ∃ outer, s.enclosing? f = some outer ∧ s.Fits outer scopes

theorem Fits.mono (hgrows : s.Grows later) {scopes : List Scope} (h : s.Fits f scopes) :
    later.Fits f scopes := by
  induction scopes generalizing f with
  | nil => exact h
  | cons scope scopes ih =>
    obtain ⟨hbound, outer, houter, hfits⟩ := h
    refine ⟨fun name hname => hgrows.bound f name (hbound name hname), outer, ?_, ih hfits⟩
    rw [hgrows.enclosing f (lt_size_of_enclosing? houter), houter]

theorem Fits.lt_size {scopes : List Scope} (h : s.Fits f scopes) (hsize : 0 < s.frames.size) :
    f.index < s.frames.size := by
  rcases scopes with _ | ⟨scope, scopes⟩
  · rw [h]
    exact hsize
  · obtain ⟨-, outer, houter, -⟩ := h
    exact lt_size_of_enclosing? houter

/-- As many frames as there are scopes lie around the frame. -/
theorem Fits.ancestor? {scopes : List Scope} {hops : Nat} (h : s.Fits f scopes)
    (hhops : hops ≤ scopes.length) :
    ∃ found, s.ancestor? f hops = some found ∧ s.Fits found (scopes.drop hops) := by
  induction hops generalizing f scopes with
  | zero => exact ⟨f, rfl, h⟩
  | succ hops ih =>
    rcases scopes with _ | ⟨scope, scopes⟩
    · simp at hhops
    · obtain ⟨-, outer, houter, hfits⟩ := h
      obtain ⟨found, hfound, hrest⟩ := ih hfits (by simpa using hhops)
      refine ⟨found, ?_, hrest⟩
      rw [Store.ancestor?, houter]
      exact hfound

/-- A name that is ready in a scope is bound in the frame that the hop count leads to. -/
theorem Fits.getAt {scopes : List Scope} {hops : Nat} (h : s.Fits f scopes)
    (hname : Defines scopes hops name) :
    ∃ owner found, s.ancestor? f hops = some owner ∧ s.local? owner name = some found
      ∧ s.getAt f hops name = .ok found := by
  obtain ⟨scope, hscope, hready⟩ := hname
  obtain ⟨hlt, hget⟩ := List.getElem?_eq_some_iff.mp hscope
  obtain ⟨owner, howner, hfits⟩ := h.ancestor? (Nat.le_of_lt hlt)
  rw [List.drop_eq_getElem_cons hlt, hget] at hfits
  obtain ⟨found, hfound⟩ := Option.isSome_iff_exists.mp (hfits.1 name hready)
  exact ⟨owner, found, howner, hfound, getAt_of_local? howner hfound⟩

/-- A name that is not ready yet asks nothing of the frame. -/
theorem Fits.putDeclared {scopes : List Scope} (h : s.Fits f scopes) (name : String) :
    s.Fits f (putName name .declared scopes) := by
  rcases scopes with _ | ⟨scope, scopes⟩
  · exact h
  · refine ⟨fun other hother => ?_, h.2⟩
    rw [Std.ExtTreeMap.getElem?_insert] at hother
    split at hother
    · cases hother
    · exact h.1 other hother

/-- Once a name is bound, it may be ready. -/
theorem Fits.putDefined {scopes : List Scope} (h : s.Fits f scopes)
    (hbound : (s.local? f name).isSome) : s.Fits f (putName name .defined scopes) := by
  rcases scopes with _ | ⟨scope, scopes⟩
  · exact h
  · refine ⟨fun other hother => ?_, h.2⟩
    rw [Std.ExtTreeMap.getElem?_insert] at hother
    split at hother
    · rename_i heq
      have hname : name = other := by simpa using heq
      rw [← hname]
      exact hbound
    · exact h.1 other hother

/-- A new frame fits a scope without names. -/
theorem Fits.child {scopes : List Scope} (h : s.Fits f scopes) (hsize : 0 < s.frames.size) :
    (s.child f).2.Fits (s.child f).1 (∅ :: scopes) := by
  refine ⟨fun name hname => by simp at hname, f, enclosing?_child_self (h.lt_size hsize), ?_⟩
  exact h.mono (Grows.child s f)

/-- A new frame with one name fits the scope of this name. -/
theorem Fits.childDefine {scopes : List Scope} (h : s.Fits f scopes) (hsize : 0 < s.frames.size)
    (name : String) (value : Value) :
    ((s.child f).2.define (s.child f).1 name value).Fits (s.child f).1
      ((∅ : Scope).insert name .defined :: scopes) := by
  have hchild := h.child hsize
  have hlt : (s.child f).1.index < (s.child f).2.frames.size :=
    hchild.lt_size (Nat.lt_of_lt_of_le hsize (Grows.child s f).size)
  refine Fits.putDefined (hchild.mono (.define _ _ _ _)) ?_
  rw [local?_define_self hlt]
  rfl

end Store

end Treewalk
