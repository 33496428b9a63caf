import Treewalk.Proofs.Store.Growth

/-!
# Labels of frames

**What is known of every frame is kept in a list beside the store, one label for each frame.**  A
label comes with the frame around it, so the labels from a frame outward can be read off without
the store.  Frames are only added at the end, and so are labels.
-/

namespace Treewalk

/-- What each frame is labelled with, and the frame around it. -/
abbrev Labels (α : Type) := List (α × Option FrameId)

namespace Labels

variable {α : Type} {w later : Labels α} {f outer : FrameId} {label : α} {labels : List α}

/-- From a frame outward, the frames have these labels.  That of the global frame is left out. -/
inductive Chain (w : Labels α) : FrameId → List α → Prop
  | globals : Chain w Store.globals []
  | inner {f outer : FrameId} {label : α} {labels : List α}
    (hf : w[f.index]? = some (label, some outer)) (h : Chain w outer labels) :
    Chain w f (label :: labels)

theorem getElem?_mono (hw : w <+: later) {i : Nat} {frame : α × Option FrameId}
    (h : w[i]? = some frame) : later[i]? = some frame := by
  obtain ⟨more, rfl⟩ := hw
  rw [List.getElem?_append_left (List.getElem?_eq_some_iff.mp h).1, h]

theorem Chain.mono (hw : w <+: later) (h : w.Chain f labels) : later.Chain f labels := by
  induction h with
  | globals => exact .globals
  | inner hf _ ih => exact .inner (getElem?_mono hw hf) ih

/-- The labels with one more frame. -/
def withChild (w : Labels α) (label : α) (f : FrameId) : Labels α :=
  w ++ [(label, some f)]

theorem length_withChild (w : Labels α) (label : α) (f : FrameId) :
    (w.withChild label f).length = w.length + 1 := by
  simp [withChild]

theorem prefix_withChild (w : Labels α) (label : α) (f : FrameId) : w <+: w.withChild label f :=
  List.prefix_append _ _

theorem getElem?_withChild_of_lt (label : α) (f : FrameId) {i : Nat} (h : i < w.length) :
    (w.withChild label f)[i]? = w[i]? :=
  List.getElem?_append_left h

theorem getElem?_withChild_self (w : Labels α) (label : α) (f : FrameId) :
    (w.withChild label f)[w.length]? = some (label, some f) :=
  List.getElem?_concat_length

theorem eq_of_getElem?_withChild {label other : α} {f : FrameId} {i : Nat} {outer : Option FrameId}
    (h : (w.withChild label f)[i]? = some (other, outer)) :
    (i < w.length ∧ w[i]? = some (other, outer)) ∨ (i = w.length ∧ other = label ∧ outer = some f) := by
  by_cases hlt : i < w.length
  · rw [getElem?_withChild_of_lt label f hlt] at h
    exact Or.inl ⟨hlt, h⟩
  · have hbound := (List.getElem?_eq_some_iff.mp h).1
    rw [length_withChild] at hbound
    have hi : i = w.length := by omega
    subst hi
    rw [getElem?_withChild_self] at h
    cases h
    exact Or.inr ⟨rfl, rfl, rfl⟩

/-- The new frame is inside the one that it was made in. -/
theorem Chain.withChild (h : w.Chain f labels) (label : α) :
    (w.withChild label f).Chain ⟨w.length⟩ (label :: labels) :=
  .inner (w.getElem?_withChild_self label f) (h.mono (w.prefix_withChild label f))

end Labels

end Treewalk
