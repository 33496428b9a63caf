import Mathlib.Data.List.Pairwise
import Treewalk.Proofs.Binding.Mentions
import Treewalk.Proofs.Binding.Placement

/-!
# Shapes of scopes

**The names that a scope will ever hold can be told before it has any.**  A scope grows with every
declaration, and functions that were declared early run when it has grown.  Its shape is what the
source says of it as a whole: all names of a block or function, or the class around methods.

What is known of scopes carries over to shapes: a hop count leads to a shape that declares the
name, and if no two declarations of the program share a name, to the first one that does.
-/

namespace Treewalk

/-! ### Shapes -/

/-- The scope of a block or function with all its names, or one of the two scopes around the
    methods of a class. -/
inductive Shape where
  | names (texts : List String)
  | this (declaration : ClassDecl)
  | super (declaration : ClassDecl)

/-- A scope of this shape may hold the name. -/
def Shape.Declares : Shape → String → Prop
  | .names texts, text => text ∈ texts
  | .this _, text => text = "this"
  | .super _, text => text = "super"

/-- The class whose methods are innermost around. -/
def innermostClass : List Shape → Option ClassDecl
  | [] => none
  | .this declaration :: _ => some declaration
  | _ :: shapes => innermostClass shapes

/-- The shapes around the methods of a class. -/
def methodShapes (declaration : ClassDecl) (shapes : List Shape) : List Shape :=
  .this declaration ::
    if declaration.superclass.isSome then .super declaration :: shapes else shapes

/-- No block and no function around declares the name. -/
def Unshared (shapes : List Shape) (text : String) : Prop :=
  ∀ texts, .names texts ∈ shapes → text ∉ texts

/-- The innermost scope may get the name.  At the top level there is none to get it. -/
def Owns : List Shape → String → Prop
  | [], _ => True
  | .names texts :: _, text => text ∈ texts
  | _ :: _, _ => False

/-- The scopes have these shapes.  If names are `distinct`, those of a scope are in none around
    it. -/
inductive Shaped (distinct : Prop) : List Scope → List Shape → Prop
  | top : Shaped distinct [] []
  | names {scope : Scope} {texts : List String} {scopes : List Scope} {shapes : List Shape}
    (hscope : ∀ text ∈ scope, text ∈ texts) (hunreserved : ∀ text ∈ texts, IsUnreserved text)
    (hunshared : distinct → ∀ text ∈ texts, Unshared shapes text)
    (h : Shaped distinct scopes shapes) : Shaped distinct (scope :: scopes) (.names texts :: shapes)
  | plain {declaration : ClassDecl} {scopes : List Scope} {shapes : List Shape}
    (hclass : declaration.superclass.isSome = false) (h : Shaped distinct scopes shapes) :
    Shaped distinct (thisScope :: scopes) (.this declaration :: shapes)
  | derived {declaration : ClassDecl} {scopes : List Scope} {shapes : List Shape}
    (hclass : declaration.superclass.isSome = true) (h : Shaped distinct scopes shapes) :
    Shaped distinct (thisScope :: superScope :: scopes)
      (.this declaration :: .super declaration :: shapes)

theorem mem_single {name text : String} :
    text ∈ (∅ : Scope).insert name .defined ↔ text = name := by
  rw [Std.ExtTreeMap.mem_insert]
  constructor
  · rintro (heq | hmem)
    · exact (show name = text by simpa using heq).symm
    · simp at hmem
  · rintro rfl
    simp

theorem mem_thisScope {text : String} : text ∈ thisScope ↔ text = "this" := mem_single

theorem mem_superScope {text : String} : text ∈ superScope ↔ text = "super" := mem_single

namespace Shaped

variable {distinct : Prop} {scopes : List Scope} {shapes : List Shape} {text : String}

/-- A name is put into a scope that may get it. -/
theorem putName (h : Shaped distinct scopes shapes) (howns : Owns shapes text) (standing : Standing) :
    Shaped distinct (Treewalk.putName text standing scopes) shapes := by
  cases h with
  | top => exact .top
  | names hscope hunreserved hunshared h =>
    refine .names (fun other hother => ?_) hunreserved hunshared h
    rcases Std.ExtTreeMap.mem_insert.mp hother with heq | hmem
    · rw [← show text = other by simpa using heq]
      exact howns
    · exact hscope other hmem
  | plain => exact howns.elim
  | derived => exact howns.elim

theorem methods {declaration : ClassDecl} (h : Shaped distinct scopes shapes) :
    Shaped distinct (methodScopes declaration.superclass.isSome scopes)
      (methodShapes declaration shapes) := by
  unfold methodScopes methodShapes
  rcases hclass : declaration.superclass.isSome with _ | _
  · exact .plain hclass h
  · exact .derived hclass h

/-- Where a scope holds a name, its shape declares it. -/
theorem declares (h : Shaped distinct scopes shapes) {hops : Nat} {scope : Scope}
    (hget : scopes[hops]? = some scope) (hmem : text ∈ scope) :
    ∃ shape, shapes[hops]? = some shape ∧ shape.Declares text := by
  induction h generalizing hops with
  | top => simp at hget
  | @names first texts scopes shapes hscope hunreserved hunshared h ih =>
    rcases hops with _ | hops
    · cases hget
      exact ⟨_, rfl, hscope text hmem⟩
    · exact ih hget
  | plain hclass h ih =>
    rcases hops with _ | hops
    · cases hget
      exact ⟨_, rfl, mem_thisScope.mp hmem⟩
    · exact ih hget
  | derived hclass h ih =>
    rcases hops with _ | _ | hops
    · cases hget
      exact ⟨_, rfl, mem_thisScope.mp hmem⟩
    · cases hget
      exact ⟨_, rfl, mem_superScope.mp hmem⟩
    · exact ih hget

/-- The shape that the hop count of a name leads to declares it. -/
theorem declares_of_hopsIn (h : Shaped distinct scopes shapes) {hops : Nat}
    (hhops : hopsIn scopes text = some hops) :
    ∃ shape, shapes[hops]? = some shape ∧ shape.Declares text := by
  obtain ⟨scope, hget, hmem⟩ := exists_of_hopsIn hhops
  exact h.declares hget hmem

theorem isUnreserved_of_mem (h : Shaped distinct scopes shapes) {texts : List String}
    (htexts : .names texts ∈ shapes) (htext : text ∈ texts) : IsUnreserved text := by
  induction h with
  | top => cases htexts
  | names hscope hunreserved hunshared h ih =>
    rcases List.mem_cons.mp htexts with heq | hmem
    · cases heq
      exact hunreserved text htext
    · exact ih hmem
  | plain hclass h ih =>
    rcases List.mem_cons.mp htexts with heq | hmem
    · cases heq
    · exact ih hmem
  | derived hclass h ih =>
    rcases List.mem_cons.mp htexts with heq | hmem
    · cases heq
    · rcases List.mem_cons.mp hmem with heq | hmem
      · cases heq
      · exact ih hmem

/-- A name that is free to be one is declared by a block or function. -/
theorem names_of_declares {shape : Shape} (hdeclares : shape.Declares text)
    (hunreserved : IsUnreserved text) : ∃ texts, shape = .names texts ∧ text ∈ texts := by
  cases shape with
  | names texts => exact ⟨texts, rfl, hdeclares⟩
  | this declaration => exact absurd hdeclares hunreserved.ne_this
  | super declaration => exact absurd hdeclares hunreserved.ne_super

/-- With distinct names, no shape before the one that a hop count leads to declares the name. -/
theorem not_declares_before (h : Shaped distinct scopes shapes) (hdistinct : distinct) {hops : Nat}
    (hhops : hopsIn scopes text = some hops) {k : Nat} (hk : k < hops) {shape : Shape}
    (hget : shapes[k]? = some shape) : ¬ shape.Declares text := by
  induction h generalizing hops k with
  | top => simp at hget
  | @names first texts scopes shapes hscope hunreserved hunshared h ih =>
    by_cases hmem : text ∈ first
    · rw [hopsIn_cons_of_mem hmem] at hhops
      cases hhops
      omega
    · rw [hopsIn_cons_of_not_mem hmem] at hhops
      obtain ⟨outer, houter, rfl⟩ := Option.map_eq_some_iff.mp hhops
      rcases k with _ | k
      · cases hget
        intro htext
        obtain ⟨found, hfound, hdeclares⟩ := h.declares_of_hopsIn houter
        obtain ⟨others, rfl, hother⟩ := names_of_declares hdeclares (hunreserved text htext)
        exact hunshared hdistinct text htext others (List.mem_of_getElem? hfound) hother
      · exact ih houter (by omega) hget
  | plain hclass h ih =>
    by_cases hthis : text = "this"
    · rw [hopsIn_cons_of_mem (mem_thisScope.mpr hthis)] at hhops
      cases hhops
      omega
    · rw [hopsIn_cons_of_not_mem fun hmem => hthis (mem_thisScope.mp hmem)] at hhops
      obtain ⟨outer, houter, rfl⟩ := Option.map_eq_some_iff.mp hhops
      rcases k with _ | k
      · cases hget
        exact hthis
      · exact ih houter (by omega) hget
  | derived hclass h ih =>
    by_cases hthis : text = "this"
    · rw [hopsIn_cons_of_mem (mem_thisScope.mpr hthis)] at hhops
      cases hhops
      omega
    · rw [hopsIn_cons_of_not_mem fun hmem => hthis (mem_thisScope.mp hmem)] at hhops
      obtain ⟨outer, houter, rfl⟩ := Option.map_eq_some_iff.mp hhops
      rcases k with _ | k
      · cases hget
        exact hthis
      · by_cases hsuper : text = "super"
        · rw [hopsIn_cons_of_mem (mem_superScope.mpr hsuper)] at houter
          cases houter
          omega
        · rw [hopsIn_cons_of_not_mem fun hmem => hsuper (mem_superScope.mp hmem)] at houter
          obtain ⟨last, hlast, rfl⟩ := Option.map_eq_some_iff.mp houter
          rcases k with _ | k
          · cases hget
            exact hsuper
          · exact ih hlast (by omega) hget

/-- In a class with a superclass, `super` is found around its methods, and `this` one scope further
    inside, with nothing before it that would be found instead. -/
theorem super_shapes (h : Shaped distinct scopes shapes) {declaration : ClassDecl}
    (hwithin : innermostClass shapes = some declaration)
    (hderived : declaration.superclass.isSome = true) :
    ∃ inner, hopsIn scopes "super" = some (inner + 1) ∧ hopsIn scopes "this" = some inner
      ∧ shapes[inner]? = some (.this declaration)
      ∧ shapes[inner + 1]? = some (.super declaration)
      ∧ ∀ k < inner, ∀ shape, shapes[k]? = some shape → ∃ texts, shape = .names texts := by
  induction h with
  | top => cases hwithin
  | @names first texts scopes shapes hscope hunreserved hunshared h ih =>
    obtain ⟨inner, hsuper, hthis, hgetThis, hgetSuper, hbefore⟩ := ih hwithin
    have hnotin : ∀ text, ¬ IsUnreserved text → text ∉ first := fun text htext hmem =>
      htext (hunreserved text (hscope text hmem))
    refine ⟨inner + 1, ?_, ?_, hgetThis, hgetSuper, fun k hk shape hget => ?_⟩
    · rw [hopsIn_cons_of_not_mem (hnotin _ fun h => h.ne_super rfl), hsuper]
      rfl
    · rw [hopsIn_cons_of_not_mem (hnotin _ fun h => h.ne_this rfl), hthis]
      rfl
    · rcases k with _ | k
      · cases hget
        exact ⟨_, rfl⟩
      · exact hbefore k (by omega) shape hget
  | plain hclass h ih =>
    cases hwithin
    rw [hclass] at hderived
    cases hderived
  | derived hclass h ih =>
    cases hwithin
    refine ⟨0, ?_, ?_, rfl, rfl, fun k hk => absurd hk (Nat.not_lt_zero k)⟩
    · rw [hopsIn_cons_of_not_mem (by simp [mem_thisScope]),
        hopsIn_cons_of_mem (mem_superScope.mpr rfl)]
      rfl
    · exact hopsIn_cons_of_mem (mem_thisScope.mpr rfl) _

end Shaped

end Treewalk
