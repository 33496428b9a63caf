import Mathlib.Data.List.Induction
import Treewalk.Proofs.Evaluation.KnownRuns
import Treewalk.Proofs.Session.Printing
import Treewalk.Proofs.Session.Rejection

/-!
# What happens in a session

**Everything that happens in a session happens while one of its sources runs, and is known.**  Only
sources without static errors run, and each begins with the machine that the sources before it have
left, however they ended.  The values in that machine were made by those sources.
-/

namespace Treewalk

namespace Session

/-- The part with which a source begins.  A source with static errors has none. -/
inductive Begins (s : Session) : Request → Moment → Prop
  | run {source : String} {program : Program} {last : Nat}
    (h : Reads source s.nextId program last) (steps : Nat) :
    Begins s (.run steps source)
      ⟨.program program, steps, s.machine.learn (Program.bindings program).hops⟩
  | evaluate {source : String} {e : Expr} {last : Nat}
    (h : ReadsExpression source s.nextId e last) (steps : Nat) :
    Begins s (.evaluate steps source) ⟨.evaluate e, steps, s.machine.learn e.bindings.hops⟩

/-- The moment is part of a source of the history. -/
def Happens (outside : Outside) (history : List Request) (moment : Moment) : Prop :=
  ∃ (before : List Request) (request : Request) (rest : List Request) (root : Moment),
    history = before ++ request :: rest ∧ ((start outside).afterAll before).Begins request root
      ∧ root.Reaches moment

theorem closed_happens (outside : Outside) (history : List Request) :
    Moment.Closed (Happens outside history) := by
  rintro a b ⟨before, request, rest, root, hhistory, hbegins, hreaches⟩ hstarts
  exact ⟨before, request, rest, root, hhistory, hbegins, hreaches.tail hstarts⟩

/-! ### The code of a source -/

theorem Reads.known {source : String} {first last : Nat} {program : Program}
    (h : Reads source first program last) : KnownStatements program :=
  ⟨h.wellFormed, h.nodup, .none, Program.checked h.bound⟩

theorem ReadsExpression.wellFormed {source : String} {first last : Nat} {e : Expr}
    (h : ReadsExpression source first e last) : e.WellFormed := by
  obtain ⟨cursor, hread, -⟩ := h.read
  have hnumbered := (Cursor.expression_numbered (Cursor.start_lexed source first)).2
  rw [hread] at hnumbered
  exact (hnumbered e rfl).2

/-! ### Sources one after another -/

section Sources

variable {happened : Moment → Prop} {s : Session} {request : Request}

theorem Begins.known {root : Moment} (h : s.Begins request root)
    (hs : s.machine.Known happened) : root.Known happened := by
  cases h with
  | run hreads => exact ⟨hreads.known, hs.of_store_eq rfl⟩
  | evaluate hreads => exact ⟨hreads.wellFormed, hs.of_store_eq rfl⟩

theorem machine_runWith {α : Type} (s : Session) (bindings : Bindings) (body : Run α) :
    (s.runWith bindings body).2.machine
      = (Run.left body (s.machine.learn bindings.hops)).forget bindings.topLevel := by
  unfold runWith Run.left
  dsimp only
  rcases body (s.machine.learn bindings.hops) with ⟨_, _⟩ | ⟨_, _⟩ <;> rfl

/-- A source that is rejected uses up numbers and nothing else.  One that is not is run. -/
theorem of_perform {P : Session → Prop}
    (hrejected : ∀ nextId, s.nextId ≤ nextId → P { s with nextId })
    (hrun : ∀ steps source program last, request = .run steps source →
      Reads source s.nextId program last →
      P (runWith { s with nextId := last } (Program.bindings program)
        (Run.interpret steps program)).2)
    (hevaluate : ∀ steps source e last, request = .evaluate steps source →
      ReadsExpression source s.nextId e last →
      P (runWith { s with nextId := last } e.bindings (Run.evaluate steps e)).2) :
    P (s.perform request).2 := by
  by_cases hrejects : ∃ reports, (s.perform request).1 = .error (.rejected reports)
  · obtain ⟨reports, hrejects⟩ := hrejects
    obtain ⟨-, nextId, hle, hunchanged⟩ := perform_rejected hrejects
    rw [hunchanged]
    exact hrejected nextId hle
  · rw [not_exists] at hrejects
    cases request with
    | run steps source =>
      have haccepted : ∀ reports, (s.run steps source).1 ≠ .error (.rejected reports) := by
        intro reports h
        refine hrejects reports ?_
        show (s.run steps source).1.map _ = _
        rw [h]
        rfl
      obtain ⟨program, last, hreads⟩ := reads_of_ne_rejected haccepted
      show P (s.run steps source).2
      rw [hreads.run]
      exact hrun steps source program last rfl hreads
    | evaluate steps source =>
      have haccepted : ∀ reports, (s.evaluate steps source).1 ≠ .error (.rejected reports) := by
        intro reports h
        refine hrejects reports ?_
        show (s.evaluate steps source).1.map _ = _
        rw [h]
        rfl
      obtain ⟨e, last, hreads⟩ := readsExpression_of_ne_rejected haccepted
      show P (s.evaluate steps source).2
      rw [hreads.evaluate]
      exact hevaluate steps source e last rfl hreads

/-- A source leaves the machine as it was if it is rejected, and else as its code leaves it. -/
theorem of_machine_perform {P : Machine → Prop} (hsame : P s.machine)
    (hrun : ∀ steps source program last, request = .run steps source →
      Reads source s.nextId program last →
      P ((Run.left (Run.interpret steps program)
        (s.machine.learn (Program.bindings program).hops)).forget
          (Program.bindings program).topLevel))
    (hevaluate : ∀ steps source e last, request = .evaluate steps source →
      ReadsExpression source s.nextId e last →
      P ((Run.left (Run.evaluate steps e) (s.machine.learn e.bindings.hops)).forget
        e.bindings.topLevel)) :
    P (s.perform request).2.machine := by
  refine of_perform (P := fun s => P s.machine) (fun _ _ => hsame) ?_ ?_
  · intro steps source program last hrequest hreads
    rw [machine_runWith]
    exact hrun steps source program last hrequest hreads
  · intro steps source e last hrequest hreads
    rw [machine_runWith]
    exact hevaluate steps source e last hrequest hreads

/-- A source leaves a machine in which all values are known, whether it is run or rejected. -/
theorem known_perform (hclosed : Moment.Closed happened) (hs : s.machine.Known happened)
    (hhappened : ∀ root, s.Begins request root → happened root) :
    (s.perform request).2.machine.Known happened := by
  refine of_machine_perform hs ?_ ?_
  · rintro steps source program last rfl hreads
    have hbegins := Begins.run hreads steps
    have hroot := hbegins.known hs
    have hkeeps := Run.known_executeTop hclosed steps program hroot.machine hroot.task
      (hhappened _ hbegins)
    have hinterpret : Run.Keeps (Treewalk.known happened) (Run.interpret steps program)
        (s.machine.learn (Program.bindings program).hops) fun _ _ => True :=
      hkeeps.bind fun _ after hafter _ _ => Run.known_flush hafter
    exact Machine.Known.of_store_eq hinterpret.left.1 rfl
  · rintro steps source e last rfl hreads
    have hbegins := Begins.evaluate hreads steps
    have hroot := hbegins.known hs
    have hkeeps := Run.known_evaluate hclosed steps e hroot.machine hroot.task
      (hhappened _ hbegins)
    exact Machine.Known.of_store_eq hkeeps.left.1 rfl

end Sources

theorem known_start (happened : Moment → Prop) (outside : Outside) :
    (start outside).machine.Known happened where
  bound f name value h := by
    rw [start] at h
    rw [Machine.local?_initial h]
    trivial
  fields o name value h := by
    rw [start, Machine.field?_initial] at h
    cases h

/-- Before each source of a history all values are known. -/
theorem known_afterAll {outside : Outside} {history : List Request} (before : List Request) :
    ∀ {rest : List Request}, history = before ++ rest →
      ((start outside).afterAll before).machine.Known (Happens outside history) := by
  induction before using List.reverseRecOn with
  | nil => exact fun _ => known_start _ outside
  | append_singleton before request ih =>
    intro rest hhistory
    have hsplit : history = before ++ request :: rest := by
      rw [hhistory, List.append_assoc, List.singleton_append]
    unfold afterAll
    rw [List.foldl_append, List.foldl_cons, List.foldl_nil]
    refine known_perform (closed_happens outside history) (ih hsplit) fun root hroot => ?_
    exact ⟨before, request, rest, root, hsplit, hroot, .refl⟩

/-- Everything that happens is known. -/
theorem Happens.known {outside : Outside} {history : List Request} {moment : Moment}
    (h : Happens outside history moment) : moment.Known (Happens outside history) := by
  obtain ⟨before, request, rest, root, hhistory, hbegins, hreaches⟩ := id h
  refine (hbegins.known (known_afterAll before hhistory)).reaches (closed_happens outside history) ?_
    hreaches
  exact ⟨before, request, rest, root, hhistory, hbegins, .refl⟩

end Session

end Treewalk
