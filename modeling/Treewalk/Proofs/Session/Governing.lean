import Treewalk.Proofs.Evaluation.GovernedRuns
import Treewalk.Proofs.Session.Happening

/-!
# Sessions under a regime

**Every moment of every session keeps to every lawful regime.**  A session begins with the native
functions alone.  Each source begins in the global frame, with what the sources before it have left,
however they ended, and its code is well-formed.
-/

namespace Treewalk

variable {r : Regime}

/-- A machine before its first program keeps to every lawful regime. -/
theorem Regime.Lawful.governed_initial (hr : r.Lawful) (outside : Outside) :
    (Machine.initial outside).Governed r where
  holds :=
    { shape := (hr.initial outside).1
      bound := fun f name value h => by
        have hinitial : (Machine.initial outside).store.local? f name = some value := h
        rw [Machine.local?_initial hinitial]
        trivial
      fields := fun o name value h => by
        rw [Machine.stock, Machine.field?_initial] at h
        cases h }
  scope := (hr.initial outside).2

namespace Session

variable {s : Session} {request : Request}

/-- A source begins with well-formed code. -/
theorem Begins.governed {root : Moment} (h : s.Begins request root) (hs : s.machine.Governed r) :
    root.Governed r := by
  cases h with
  | run hreads => exact ⟨hreads.known.1, hs.holds, hs.scope⟩
  | evaluate hreads => exact ⟨hreads.wellFormed, hs.holds, hs.scope⟩

theorem governed_perform (hr : r.Lawful) (hs : s.machine.Governed r) :
    (s.perform request).2.machine.Governed r := by
  refine of_machine_perform hs ?_ ?_
  · rintro steps source program last rfl hreads
    have hroot := (Begins.run hreads steps).governed hs
    have hinterpret : Run.Keeps r.discipline (Run.interpret steps program)
        (s.machine.learn (Program.bindings program).hops) fun _ _ => True :=
      (Run.governed_executeTop hr steps program hroot.machine hroot.task).bind
        fun _ after hafter _ _ => Run.governed_flush hafter
    have hleft := hroot.machine.after hinterpret.left.1 hinterpret.left.2
    exact ⟨hleft.holds, hleft.scope⟩
  · rintro steps source e last rfl hreads
    have hroot := (Begins.evaluate hreads steps).governed hs
    have hkeeps := Run.governed_evaluate hr steps e hroot.machine hroot.task
    have hleft := hroot.machine.after hkeeps.left.1 hkeeps.left.2
    exact ⟨hleft.holds, hleft.scope⟩

/-- Everything that happens keeps to the regime. -/
theorem Happens.governed (hr : r.Lawful) {outside : Outside} {history : List Request} {moment : Moment}
    (h : Happens outside history moment) : moment.Governed r := by
  obtain ⟨before, request, rest, root, -, hbegins, hreaches⟩ := h
  have hs : ((start outside).afterAll before).machine.Governed r :=
    of_afterAll (P := fun s => s.machine.Governed r) (fun _ _ hs => governed_perform hr hs) before
      (hr.governed_initial outside)
  exact (hbegins.governed hs).reaches hr hreaches

end Session

end Treewalk
