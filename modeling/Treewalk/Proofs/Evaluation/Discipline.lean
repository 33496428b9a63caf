import Treewalk.Machine
import Treewalk.Proofs.Sequencing
import Treewalk.Proofs.Store.Growth

/-!
# Runs that keep to rules

**A rule for runs is an invariant of the machine, a relation between the machine before and
after, and the reasons for which a run may stop.**  A run keeps to it if all three hold however
it ends, well or not.  Of two runs in sequence the second starts where the first ends, so it is
enough to look at each by itself.
-/

namespace Treewalk

/-- What runs are held to. -/
structure Discipline where
  holds : Machine → Prop
  later : Machine → Machine → Prop
  refl : ∀ m, later m m
  trans : ∀ {m middle after}, later m middle → later middle after → later m after
  permits : Halt → Prop

/-- From a machine on, a run keeps to the rules, and what it leaves is as stated. -/
def Run.Keeps {α : Type} (d : Discipline) (x : Run α) (m : Machine)
    (Q : α → Machine → Prop) : Prop :=
  match x m with
  | .ok a after => d.holds after ∧ d.later m after ∧ Q a after
  | .error halt after => d.holds after ∧ d.later m after ∧ d.permits halt

namespace Run

variable {α β : Type} {d : Discipline} {x : Run α} {f : α → Run β} {m after : Machine}
variable {Q : α → Machine → Prop}

theorem keeps_of_ok {a : α} (h : x m = .ok a after) (hholds : d.holds after)
    (hlater : d.later m after) (hQ : Q a after) : Keeps d x m Q := by
  unfold Keeps
  rw [h]
  exact ⟨hholds, hlater, hQ⟩

theorem keeps_of_error {halt : Halt} (h : x m = .error halt after) (hholds : d.holds after)
    (hlater : d.later m after) (hpermits : d.permits halt) : Keeps d x m Q := by
  unfold Keeps
  rw [h]
  exact ⟨hholds, hlater, hpermits⟩

/-- A run that does there what another does keeps to the rules that this one keeps to. -/
theorem Keeps.congr {y : Run α} (hy : Keeps d y m Q) (h : x m = y m) : Keeps d x m Q := by
  unfold Keeps
  rw [h]
  exact hy

theorem keeps_pure {a : α} (hholds : d.holds m) (hQ : Q a m) : Keeps d (pure a) m Q :=
  keeps_of_ok rfl hholds (d.refl m) hQ

theorem keeps_throw {halt : Halt} (hholds : d.holds m) (hpermits : d.permits halt) :
    Keeps d (throw halt) m Q :=
  keeps_of_error rfl hholds (d.refl m) hpermits

/-- The second part of a run may rely on what the first part leaves. -/
theorem Keeps.bind {R : β → Machine → Prop} (hx : Keeps d x m Q)
    (hf : ∀ a after, d.holds after → d.later m after → Q a after → Keeps d (f a) after R) :
    Keeps d (x >>= f) m R := by
  unfold Keeps at hx
  rcases hm : x m with ⟨a, middle⟩ | ⟨halt, middle⟩
  · rw [hm] at hx
    obtain ⟨hholds, hlater, hQ⟩ := hx
    have hrest := hf a middle hholds hlater hQ
    unfold Keeps at hrest ⊢
    rw [bind_of_ok hm]
    rcases hfa : f a middle with ⟨b, last⟩ | ⟨halt, last⟩
    · rw [hfa] at hrest
      exact ⟨hrest.1, d.trans hlater hrest.2.1, hrest.2.2⟩
    · rw [hfa] at hrest
      exact ⟨hrest.1, d.trans hlater hrest.2.1, hrest.2.2⟩
  · rw [hm] at hx
    exact keeps_of_error (bind_of_error hm) hx.1 hx.2.1 hx.2.2

theorem Keeps.imp {R : α → Machine → Prop} (hx : Keeps d x m Q)
    (hQ : ∀ a after, d.later m after → Q a after → R a after) : Keeps d x m R := by
  unfold Keeps at hx ⊢
  rcases hm : x m with ⟨a, after⟩ | ⟨halt, after⟩
  · rw [hm] at hx
    exact ⟨hx.1, hx.2.1, hQ a after hx.2.1 hx.2.2⟩
  · rw [hm] at hx
    exact hx

/-- What a run has kept to, it has kept to with the result that it has. -/
theorem Keeps.run (hx : Keeps d x m Q) : Keeps d x m fun a after => x m = .ok a after ∧ Q a after := by
  unfold Keeps at hx ⊢
  rcases hm : x m with ⟨a, after⟩ | ⟨halt, after⟩
  · rw [hm] at hx
    exact ⟨hx.1, hx.2.1, rfl, hx.2.2⟩
  · rw [hm] at hx
    exact hx

theorem Keeps.of_ok (hx : Keeps d x m Q) {a : α} (h : x m = .ok a after) :
    d.holds after ∧ d.later m after ∧ Q a after := by
  unfold Keeps at hx
  rw [h] at hx
  exact hx

/-! ### Variables -/

section Variables

variable {hops : Nat} {name : String} {site : Name} {frame : FrameId} {value : Value}

/-- A global variable is what the global frame binds, or the read stops. -/
theorem keeps_readGlobal {Q : Value → Machine → Prop} (hm : d.holds m)
    (hpermits : d.permits (.failure (.fault ⟨site, .undefinedVariable site.text⟩)))
    (hQ : ∀ value, m.store.local? Store.globals site.text = some value → Q value m) :
    Keeps d (readGlobal site) m Q := by
  rw [← Store.get?_globals] at hQ
  rcases hget : m.store.get? Store.globals site.text with _ | value
  · exact keeps_of_error (by unfold readGlobal; rw [hget]) hm (d.refl m) hpermits
  · exact keeps_of_ok (by unfold readGlobal; rw [hget]) hm (d.refl m) (hQ value hget)

/-- A reference without a hop count is read as a global variable. -/
theorem read_of_global {id : Nat} (hid : m.hops[id]? = none)
    (h : m.store.get? Store.globals site.text = some value) : read site id m = .ok value m := by
  have hhops : hopsOf id m = .ok m.hops[id]? m := rfl
  rw [read, bind_of_ok hhops, hid]
  simp only [readGlobal, h]

theorem readAt_of_ok (h : m.store.getAt m.current hops name = .ok value) :
    readAt hops name m = .ok value m := by
  simp only [readAt, h]

theorem readAt_of_error {breach : Breach}
    (h : m.store.getAt m.current hops name = .error breach) :
    readAt hops name m = .error (.breach breach) m := by
  simp only [readAt, h]

theorem keeps_readAt {Q : Value → Machine → Prop} (hm : d.holds m)
    (hpermits : ∀ breach, m.store.getAt m.current hops name = .error breach →
      d.permits (.breach breach))
    (hQ : ∀ value, m.store.getAt m.current hops name = .ok value → Q value m) :
    Keeps d (readAt hops name) m Q := by
  rcases hget : m.store.getAt m.current hops name with breach | value
  · exact keeps_of_error (readAt_of_error hget) hm (d.refl m) (hpermits breach hget)
  · exact keeps_of_ok (readAt_of_ok hget) hm (d.refl m) (hQ value hget)

/-- An assignment binds the name in the frame that owns it, or stops. -/
theorem keeps_assignFrom {Q : PUnit → Machine → Prop} (hm : d.holds m)
    (hpermits : d.permits (.failure (.fault ⟨site, .undefinedVariable site.text⟩)))
    (hdefine : ∀ owner, m.store.owner? frame site.text = some owner →
      Keeps d (define owner site.text value) m Q) :
    Keeps d (assignFrom frame site value) m Q := by
  rcases howner : m.store.owner? frame site.text with _ | owner
  · exact keeps_of_error (by unfold assignFrom; rw [howner]) hm (d.refl m) hpermits
  · exact (hdefine owner howner).congr (assignFrom_of_owner howner value)

theorem keeps_assignAt {Q : PUnit → Machine → Prop} (hm : d.holds m)
    (hpermits : m.store.ancestor? m.current hops = none → d.permits (.breach .tooFewFrames))
    (hdefine : ∀ owner, m.store.ancestor? m.current hops = some owner →
      Keeps d (define owner name value) m Q) :
    Keeps d (assignAt hops name value) m Q := by
  rcases howner : m.store.ancestor? m.current hops with _ | owner
  · exact keeps_of_error (by unfold assignAt; rw [howner]) hm (d.refl m) (hpermits howner)
  · exact (hdefine owner howner).congr (assignAt_of_ancestor howner value)

end Variables

end Run

end Treewalk
