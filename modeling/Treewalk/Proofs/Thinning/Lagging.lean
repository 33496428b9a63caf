import Treewalk.Proofs.Evaluation.ForLoops
import Treewalk.Proofs.Evaluation.Stability
import Treewalk.Proofs.Thinning.Runs

/-!
# Runs with different numbers of steps

**Of two aligned runs one may have more steps than the other, which then may give up before.**  A run
that ends goes on to end in the same way with more steps, so nothing else can come between them.  A part
of the first run may also stand in a frame that the second does not have.
-/

namespace Treewalk

open Tables

namespace Run

/-- The run with fewer steps is the first or the second.  If it is the second, some steps are to
    spare. -/
def Fewer (first : Bool) (spare n k : Nat) : Prop :=
  match first with
  | true => n ≤ k
  | false => k + spare ≤ n

section Steps

variable {first : Bool} {spare n k : Nat}

theorem Fewer.first_of_lt (h : Fewer first spare n k) (hn : n < spare) : first = true := by
  cases first with
  | true => rfl
  | false =>
    have hle : k + spare ≤ n := h
    omega

/-- A part of the first run may leave some of its steps to other parts. -/
theorem Fewer.part (h : Fewer first spare n k) {fewer n' : Nat} (hn : n' ≤ n)
    (hspare : n + fewer ≤ n' + spare) : Fewer first fewer n' k := by
  cases first with
  | true => exact Nat.le_trans hn h
  | false =>
    have hle : k + spare ≤ n := h
    show k + fewer ≤ n'
    omega

theorem Fewer.pred (h : Fewer first spare (n + 1) (k + 1)) : Fewer first spare n k := by
  cases first with
  | true => exact Nat.le_of_succ_le_succ h
  | false =>
    have hle : k + 1 + spare ≤ n + 1 := h
    show k + spare ≤ n
    omega

end Steps

/-- The runs are aligned, unless the one with fewer steps gives up. -/
inductive Lags {α : Type} (first : Bool) (c : Tables) (w : Pairing) (x x' : Run α) (m m' : Machine)
    (Q : Pairing → α → α → Prop) : Prop
  | first (h : first = true) (hgave : GaveUp (x m))
  | second (h : first = false) (hgave : GaveUp (x' m'))
  | aligned (h : Aligned c w x x' m m' Q)

section Rules

variable {α β : Type} {first : Bool} {c : Tables} {w : Pairing} {x x' y y' : Run α}
variable {f f' : α → Run β} {m m' : Machine} {Q : Pairing → α → α → Prop}

theorem Aligned.of_eq (h : Aligned c w x x' m m' Q) (hy : y m = x m) (hy' : y' m' = x' m') :
    Aligned c w y y' m m' Q := by
  unfold Aligned at h ⊢
  rw [hy, hy']
  exact h

theorem Aligned.gaveUp_iff (h : Aligned c w x x' m m' Q) : GaveUp (x m) ↔ GaveUp (x' m') := by
  rcases h.cases with ⟨a, a', after, after', later, ha, ha', -⟩ |
    ⟨halt, halt', after, after', later, ha, ha', -, hhalt⟩
  · rw [ha, ha']
    constructor <;> rintro ⟨_, hgave⟩ <;> cases hgave
  · rw [ha, ha']
    constructor <;> rintro ⟨_, hgave⟩ <;> cases hgave <;> cases hhalt <;> exact ⟨_, rfl⟩

/-- The second run may have more steps. -/
theorem Aligned.lags_first (h : Aligned c w x x' m m' Q) (hy : OutlastedBy x' y') :
    Lags true c w x y' m m' Q := by
  rcases hy m' with hgave | hsame
  · exact .first rfl (h.gaveUp_iff.mpr hgave)
  · exact .aligned (h.of_eq rfl hsame)

/-- The first run may have more steps. -/
theorem Aligned.lags_second (h : Aligned c w x x' m m' Q) (hy : OutlastedBy x y) :
    Lags false c w y x' m m' Q := by
  rcases hy m with hgave | hsame
  · exact .second rfl (h.gaveUp_iff.mp hgave)
  · exact .aligned (h.of_eq hsame rfl)

theorem Lags.bind {R : Pairing → β → β → Prop} (h : Lags first c w x x' m m' Q)
    (hf : ∀ later a a' after after', Onward c w later m m' after after' → Q later a a' →
      Lags first c later (f a) (f' a') after after' R) :
    Lags first c w (x >>= f) (x' >>= f') m m' R := by
  rcases h with ⟨h, after, hgave⟩ | ⟨h, after, hgave⟩ | h
  · exact .first h ⟨after, bind_of_error hgave⟩
  · exact .second h ⟨after, bind_of_error hgave⟩
  · rcases h.cases with ⟨a, a', middle, middle', later, ha, ha', hon, hQ⟩ |
      ⟨halt, halt', middle, middle', later, ha, ha', hon, hhalt⟩
    · rcases hf later a a' middle middle' hon hQ with ⟨h, after, hgave⟩ | ⟨h, after, hgave⟩ | hrest
      · exact .first h ⟨after, (bind_of_ok ha).trans hgave⟩
      · exact .second h ⟨after, (bind_of_ok ha').trans hgave⟩
      · exact .aligned (hrest.after hon (bind_of_ok ha) (bind_of_ok ha'))
    · exact .aligned (aligned_of_error (bind_of_error ha) (bind_of_error ha') hon hhalt)

/-- What comes behind a run comes behind both, or behind neither. -/
theorem Lags.andThen {x x' y y' : Run Flow} (h : Lags first c w x x' m m' (FlowLike c))
    (hy : ∀ later after after', Onward c w later m m' after after' →
      Lags first c later y y' after after' (FlowLike c)) :
    Lags first c w (andThen x y) (andThen x' y') m m' (FlowLike c) := by
  refine h.bind fun later flow flow' after after' hon hflow => ?_
  cases hflow with
  | returned hvalue => exact .aligned (aligned_pure hon.like (.returned hvalue))
  | normal => exact hy later after after' hon

/-! ### Frames -/

theorem gaveUp_within {frame : FrameId} (h : GaveUp (x { m with current := frame })) :
    GaveUp (within frame x m) := by
  obtain ⟨after, hgave⟩ := h
  unfold within
  rw [hgave]
  exact ⟨_, rfl⟩

theorem Lags.within {frame frame' : FrameId} (hm : MachineLike c w m m')
    (h : Lags first c w x x' { m with current := frame } { m' with current := frame' } Q) :
    Lags first c w (within frame x) (within frame' x') m m' Q := by
  rcases h with ⟨h, hgave⟩ | ⟨h, hgave⟩ | h
  · exact .first h (gaveUp_within hgave)
  · exact .second h (gaveUp_within hgave)
  · exact .aligned (aligned_within hm h)

theorem aligned_blockFrame (hm : MachineLike c w m m') :
    Aligned c w blockFrame blockFrame m m' fun later frame frame' =>
      later.Kept frame frame' ∧ ∀ {L R : List Scope}, w.Around m.current L R → ∀ scope : Scope,
        later.Around frame (scope :: L) (scope :: R) := by
  unfold blockFrame
  apply aligned_currentFrame hm
  exact aligned_child hm hm.current

/-- A new frame of the first machine binds nothing, and the second can do without it. -/
theorem aligned_spare (hm : MachineLike c w m m') {frame : FrameId} {middle : Machine}
    (hframe : blockFrame m = .ok frame middle) :
    ∃ later : Pairing, w <+: later ∧ MachineLike c later { middle with current := frame } m'
      ∧ middle.current = m.current ∧ m.store.Grows middle.store
      ∧ ∀ {L R : List Scope}, w.Around m.current L R → later.Around frame (∅ :: L) R := by
  cases hframe
  have hnew : (⟨m.store.frames.size⟩ : FrameId) = ⟨w.length⟩ := FrameId.ext hm.store.size
  refine ⟨w.withChild (true, m'.current) m.current, w.prefix_withChild _ _,
    ⟨hm.store.spareChild hm.current, ?_, hm.hops, hm.hops', hm.sink, hm.identities, hm.clock⟩,
    rfl, .child _ _, ?_⟩
  · show Pairing.Stands _ ⟨m.store.frames.size⟩ _
    rw [hnew]
    exact Pairing.stands_withChild w true m.current m'.current
  · intro L R haround
    show Pairing.Around _ ⟨m.store.frames.size⟩ _ _
    rw [hnew]
    exact haround.drop m'.current

/-- A block of the first run, of which the second run knows nothing. -/
theorem lags_spare (hm : MachineLike c w m m')
    (h : ∀ (later : Pairing) (inner : Machine), MachineLike c later inner m' →
      (∀ {L R : List Scope}, w.Around m.current L R → later.Around inner.current (∅ :: L) R) →
      Lags first c later x x' inner m' Q) :
    Lags first c w (blockFrame >>= fun frame => Run.within frame x) x' m m' Q := by
  obtain ⟨frame, middle, hframe⟩ : ∃ frame middle, blockFrame m = .ok frame middle := ⟨_, _, rfl⟩
  obtain ⟨later, hworld, hlike, hback, hgrows, haround⟩ := aligned_spare hm hframe
  have hon : ∀ {last : Pairing} {after after' : Machine},
      Onward c later last { middle with current := frame } m' after after' →
      Onward c w last m m' { after with current := middle.current } after' := by
    intro last after after' hon
    have hlater := hon.like
    have hcurrent : last.Stands middle.current after'.current := by
      rw [hback, hon.current']
      exact (hm.current.mono hworld).mono hon.world
    exact ⟨hworld.trans hon.world, ⟨hlater.store, hcurrent, hlater.hops, hlater.hops', hlater.sink,
      hlater.identities, hlater.clock⟩, hback, hon.current', hgrows.trans hon.grows⟩
  rcases h later _ hlike haround with ⟨h, hgave⟩ | ⟨h, hgave⟩ | h
  · obtain ⟨after, hgave⟩ := gaveUp_within hgave
    exact .first h ⟨after, (bind_of_ok hframe).trans hgave⟩
  · exact .second h hgave
  · rcases h.cases with ⟨a, a', after, after', last, ha, ha', hlast, hQ⟩ |
      ⟨halt, halt', after, after', last, ha, ha', hlast, hhalt⟩
    · refine .aligned (aligned_of_ok ((bind_of_ok hframe).trans ?_) ha' (hon hlast) hQ)
      unfold Run.within
      rw [ha]
    · refine .aligned (aligned_of_error ((bind_of_ok hframe).trans ?_) ha' (hon hlast) hhalt)
      unfold Run.within
      rw [ha]

end Rules

end Run

end Treewalk
