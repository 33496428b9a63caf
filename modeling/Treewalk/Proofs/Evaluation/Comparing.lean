import Treewalk.Proofs.Evaluation.Filling
import Treewalk.Proofs.Syntax.Comparing

/-!
# Comparing values

**Two values are the same if what they consist of is the same**: a function its declaration and its
frame, a class its layers, an instance its place and its class.  So one can decide what a run from a
given machine gives.
-/

namespace Treewalk

deriving instance DecidableEq for Closure
deriving instance DecidableEq for ClassLayer
deriving instance DecidableEq for ClassValue
deriving instance DecidableEq for Instance
deriving instance DecidableEq for Value
deriving instance DecidableEq for Flow

namespace Run

variable {α : Type} {x : Run α} {m : Machine}

/-- What a run gives, if it does not stop. -/
def result? (x : Run α) (m : Machine) : Option α :=
  match x m with
  | .ok a _ => some a
  | .error .. => none

theorem eq_ok_left {a : α} (h : x.result? m = some a) : x m = .ok a (left x m) := by
  unfold result? at h
  unfold left
  rcases hrun : x m with ⟨_, after⟩ | ⟨halt, after⟩ <;> rw [hrun] at h
  · cases h
    rfl
  · cases h

theorem exists_eq_ok (h : (x.result? m).isSome = true) : ∃ a after, x m = .ok a after := by
  obtain ⟨a, ha⟩ := Option.isSome_iff_exists.mp h
  exact ⟨a, left x m, eq_ok_left ha⟩

end Run

end Treewalk
