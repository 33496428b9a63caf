import Treewalk.Proofs.Evaluation.Regime

/-!
# Identities are given once

**No value of a machine has an identity that the machine will still give.**  Identities are given in
order, and every class was made with the next one.  So a class that is made is not one of those that
some variable or field holds, and no ancestor of one.  Along with this goes that functions and
methods belong to frames that are there.
-/

namespace Treewalk

/-- The function is well-formed, and its frame is in the store. -/
def Closure.Aged (s : Stock) (f : Closure) : Prop :=
  f.declaration.WellFormed ∧ f.frame.index < s.store.frames.size

/-- The identities of a class and of its ancestors have been given, and their methods are aged. -/
def ClassValue.Aged (s : Stock) (c : ClassValue) : Prop :=
  ∀ layer ∈ c.layers, layer.identity < s.identities
    ∧ ∀ (name : String) (method : Closure), layer.methods[name]? = some method → method.Aged s

/-- Identities have been given, and frames are in the store. -/
def Regime.aged : Regime where
  shape _ := True
  isScope s f := f.index < s.store.frames.size
  isCallable s f := f.Aged s
  isClass s c := c.Aged s
  isObject s o := o.ofClass.Aged s

section Growth

variable {s later : Stock}

theorem Closure.Aged.mono {f : Closure} (h : f.Aged s)
    (hframes : s.store.frames.size ≤ later.store.frames.size) : f.Aged later :=
  ⟨h.1, Nat.lt_of_lt_of_le h.2 hframes⟩

theorem ClassValue.Aged.mono {c : ClassValue} (h : c.Aged s)
    (hframes : s.store.frames.size ≤ later.store.frames.size)
    (hidentities : s.identities ≤ later.identities) : c.Aged later := by
  intro layer hlayer
  obtain ⟨hlt, hmethods⟩ := h layer hlayer
  exact ⟨Nat.lt_of_lt_of_le hlt hidentities,
    fun name method hmethod => (hmethods name method hmethod).mono hframes⟩

/-- Everything is allowed that loses no frame and takes no identity back. -/
theorem Regime.aged_allows (hframes : s.store.frames.size ≤ later.store.frames.size)
    (hidentities : s.identities ≤ later.identities) : Regime.aged.Allows s later where
  shape := trivial
  onward :=
    { scope := fun _ h => Nat.lt_of_lt_of_le h hframes
      callable := fun _ h => h.mono hframes
      ofClass := fun _ h => h.mono hframes hidentities
      object := fun _ h => ClassValue.Aged.mono h hframes hidentities }

end Growth

theorem ClassValue.Aged.findMethod? {s : Stock} {c : ClassValue} (h : c.Aged s) {name : String}
    {method : Closure} (hmethod : c.findMethod? name = some method) : method.Aged s := by
  obtain ⟨layer, hlayer, hfound⟩ := List.exists_of_findSome?_eq_some hmethod
  exact (h layer hlayer).2 name method hfound

/-- The frame in which methods are declared is there once the class is made. -/
theorem ClassDecl.methodFrame_lt {declaration : ClassDecl} {m : Machine}
    {parent : Option ClassValue} (hcurrent : m.current.index < m.store.frames.size)
    (hparent : parent.isSome = declaration.superclass.isSome) :
    (declaration.methodFrame m).index < (declaration.storeWithin m parent).frames.size := by
  rcases parent with _ | k
  · rw [methodFrame_none hparent]
    exact Nat.lt_of_lt_of_le hcurrent (declaration.grows_storeWithin m none).size
  · rw [methodFrame_some hparent, storeWithin, Store.size_define, Store.size_child]
    exact Nat.lt_succ_self _

/-- A class that is made is aged at once, by the identity that it has got. -/
theorem ClassDecl.aged_value {declaration : ClassDecl} {m : Machine} {parent : Option ClassValue}
    (hcurrent : m.current.index < m.store.frames.size)
    (hparent : parent.isSome = declaration.superclass.isSome)
    (haged : ∀ k, parent = some k → k.Aged m.stock)
    (hmethods : WellFormedMethods declaration.methods) :
    (declaration.value m parent).Aged (declaration.machineWithin m parent).stock := by
  have hgrows := (declaration.grows_storeWithin m parent).size
  intro layer hlayer
  rcases List.mem_cons.mp hlayer with rfl | hancestor
  · refine ⟨Nat.lt_succ_self _, fun name method hmethod => ?_⟩
    obtain ⟨method, hmem, -, rfl⟩ := Run.exists_of_methodTable hmethod
    exact ⟨hmethods.of_mem hmem, methodFrame_lt hcurrent hparent⟩
  · rcases parent with _ | k
    · cases hancestor
    · have hlater : k.Aged (declaration.machineWithin m (some k)).stock :=
        (haged k rfl).mono hgrows (Nat.le_succ _)
      exact hlater layer hancestor

theorem Regime.lawful_aged : Regime.aged.Lawful where
  scope_lt h := h
  callable_code h := h.1
  callable_scope h := h.2
  object_class h := h
  initial outside := ⟨trivial, by
    show 0 < (Store.initial.define Store.globals Native.clock.name (.native .clock)).frames.size
    rw [Store.size_define]
    exact Nat.zero_lt_one⟩
  define {s name value} _ _ _ f :=
    aged_allows (Nat.le_of_eq (Store.size_define s.store f name value).symm) (Nat.le_refl _)
  child {s f} _ _ := by
    have hsize := Store.size_child s.store f
    exact ⟨aged_allows (hsize ▸ Nat.le_succ _) (Nat.le_refl _), Store.child_lt_size s.store f⟩
  identity _ := aged_allows (Nat.le_refl _) (Nat.le_succ _)
  function hf hdeclaration := ⟨hdeclaration, hf⟩
  newInstance _ hc :=
    ⟨aged_allows (Nat.le_refl _) (Nat.le_refl _), hc.mono (Nat.le_refl _) (Nat.le_refl _)⟩
  setField _ _ _ _ := aged_allows (Nat.le_refl _) (Nat.le_refl _)
  bind {s c o name method} _ hc hmethod _ := by
    have hsize : ((s.store.child method.frame).2.define (s.store.child method.frame).1 "this"
        (.instance o)).frames.size = s.store.frames.size + 1 := by
      rw [Store.size_define, Store.size_child]
    refine ⟨aged_allows (hsize ▸ Nat.le_succ _) (Nat.le_refl _), (hc.findMethod? hmethod).1, ?_⟩
    show s.store.frames.size < _
    rw [hsize]
    exact Nat.lt_succ_self _
  declare {m declaration parent} _ hcurrent haged hparent _ hmethods :=
    ⟨aged_allows (declaration.grows_storeWithin m parent).size (Nat.le_succ _),
      ClassDecl.aged_value hcurrent hparent haged hmethods⟩

end Treewalk
