import Treewalk.Proofs.Evaluation.Filling
import Treewalk.Proofs.Session.Retention

/-!
# Sources and full sinks

**What a source writes under a limit is the beginning of what it writes without one.**  If all of
that is within the limit, the limit makes no difference.  Otherwise the source fails with the error
of the sink, at the first print that goes beyond; nothing is executed behind that print, and all
variables and fields are as they were when its value was known.
-/

namespace Treewalk

open Run

namespace Session

/-- The session with another limit for its sink. -/
def withLimit (n : Nat) (s : Session) : Session :=
  { s with machine := s.machine.withLimit n }

/-- What a source does, statement by statement and print by print.  A source that is rejected does
    nothing. -/
def acts (steps : Nat) (s : Session) (source : String) : List Act :=
  match s.program? source with
  | some program => executeTopActs steps program (s.machine.learn (Program.bindings program).hops)
  | none => []

section Limits

variable {n steps : Nat} {s : Session} {source : String}

theorem acts_of_program? {program : Program} (h : s.program? source = some program) :
    s.acts steps source
      = executeTopActs steps program (s.machine.learn (Program.bindings program).hops) := by
  unfold acts
  rw [h]

variable (n steps) in
/-- A source that is rejected is rejected with every sink, and writes nothing. -/
theorem run_withLimit_of_rejected (h : s.program? source = none) :
    (s.withLimit n).run steps source
        = ((s.run steps source).1, (s.run steps source).2.withLimit n)
      ∧ (s.run steps source).2.machine = s.machine := by
  have hnext : (s.withLimit n).nextId = s.nextId := rfl
  rcases hread : (Cursor.start (tokens source) s.nextId).program with ⟨program, errors, cursor⟩
  simp only [program?, hread] at h
  simp only [Session.run, runChecked, hnext, hread]
  by_cases hearly : (earlyReports source errors).isEmpty = true
  · by_cases hbound : (Program.bindings program).errors.isEmpty = true
    · rw [if_pos ⟨hearly, hbound⟩] at h
      cases h
    · simp only [hearly, hbound]
      exact ⟨rfl, rfl⟩
  · simp only [hearly]
    exact ⟨rfl, rfl⟩

/-- The output of a source is what its body leaves in the sink, however it ends. -/
theorem output_runWith {α : Type} (s : Session) (bindings : Bindings) (body : Run α) :
    (s.runWith bindings body).2.output
      = (left body (s.machine.learn bindings.hops)).sink.written := by
  unfold runWith left
  dsimp only
  rcases body (s.machine.learn bindings.hops) with ⟨a, after⟩ | ⟨halt, after⟩ <;> rfl

theorem runWith_withLimit {α : Type} {bindings : Bindings} {body : Run α}
    (h : body ((s.machine.learn bindings.hops).withLimit n)
      = inMachine (Machine.withLimit n) (body (s.machine.learn bindings.hops))) :
    (s.withLimit n).runWith bindings body
      = ((s.runWith bindings body).1, (s.runWith bindings body).2.withLimit n) := by
  have hlearn : body ((s.withLimit n).machine.learn bindings.hops)
      = inMachine (Machine.withLimit n) (body (s.machine.learn bindings.hops)) := h
  unfold runWith
  dsimp only
  rw [hlearn]
  rcases body (s.machine.learn bindings.hops) with ⟨a, after⟩ | ⟨halt, after⟩ <;> rfl

theorem runWith_of_error {α : Type} {bindings : Bindings} {body : Run α} {halt : Halt}
    {after : Machine} (h : body (s.machine.learn bindings.hops) = .error halt after) :
    s.runWith bindings body
      = (.error (.halted halt), { s with machine := after.forget bindings.topLevel }) := by
  unfold runWith
  dsimp only
  rw [h]

end Limits

/-- Under a limit the source writes the first bytes of what it writes without one.  If these are
    all, it ends as it does without the limit.  If not, it ends with the failure of the sink, its
    last act is the print that goes beyond the limit, and the store is that of the moment in which
    this print began to write. -/
structure Obeys (n steps : Nat) (s : Session) (source : String) : Prop where
  output : ((s.withLimit n).run steps source).2.output
    = (s.run steps source).2.output.extract 0 n
  within : (s.run steps source).2.output.size ≤ n →
    (s.withLimit n).run steps source
      = ((s.run steps source).1, (s.run steps source).2.withLimit n)
  beyond : n < (s.run steps source).2.output.size →
    ((s.withLimit n).run steps source).1 = .error (.halted (.failure (.sink .full)))
      ∧ ∃ o : Overflow, s.acts steps source = o.acts
        ∧ (s.withLimit n).acts steps source = o.acted.map (Act.withLimit n)
        ∧ o.moment.sink.written.size ≤ n ∧ n < o.written.size
        ∧ ((s.withLimit n).run steps source).2.machine.store = o.moment.store

section Limits

variable {n steps : Nat} {s : Session} {source : String}

theorem obeys_of_same (hsize : (s.run steps source).2.output.size ≤ n)
    (h : (s.withLimit n).run steps source
      = ((s.run steps source).1, (s.run steps source).2.withLimit n)) :
    Obeys n steps s source where
  output := by
    rw [h, extract_of_size_le hsize]
    rfl
  within _ := h
  beyond hover := absurd hsize (Nat.not_le_of_lt hover)

theorem obeys_of_overflows {program : Program} {last : Nat}
    (hprogram : s.program? source = some program) (hreads : Reads source s.nextId program last)
    {o : Overflow} (h : Overflows n (interpret steps program) (executeTopActs steps program)
      (s.machine.learn (Program.bindings program).hops) o) : Obeys n steps s source := by
  have hrun := hreads.run steps
  have hrun' := Reads.run (s := s.withLimit n) hreads steps
  have hstopped : interpret steps program
        (({ s.withLimit n with nextId := last }).machine.learn (Program.bindings program).hops)
      = .error (.failure (.sink .full)) (o.stopped n s.machine.current) := h.stops
  have hstops := runWith_of_error hstopped
  obtain ⟨more, hmore⟩ := h.left_eq
  have hwritten : (s.run steps source).2.output = o.written ++ more := by
    rw [hrun, output_runWith]
    exact hmore
  constructor
  · have houtput : ((s.withLimit n).run steps source).2.output
        = ((o.moment.sink.withLimit n).write o.value.line).written := by
      rw [hrun', hstops]
      rfl
    rw [houtput, hwritten, Sink.written_write_withLimit h.fits,
      extract_append_of_le (Nat.le_of_lt h.exceeds)]
    rfl
  · intro hsize
    rw [hwritten, ByteArray.size_append] at hsize
    exact absurd h.exceeds (by omega)
  · intro _
    rw [hrun', hstops]
    refine ⟨rfl, o, ?_, ?_, h.fits, h.exceeds, rfl⟩
    · rw [acts_of_program? hprogram, h.acts_eq]
    · rw [acts_of_program? (s := s.withLimit n) hprogram]
      exact h.acted

/-- A session whose output is within the limit so far obeys the limit. -/
theorem obeys (hlimit : s.machine.sink.limit = none) (hsize : s.output.size ≤ n) :
    Obeys n steps s source := by
  rcases hprogram : s.program? source with _ | program
  · obtain ⟨hsame, hmachine⟩ := run_withLimit_of_rejected n steps hprogram
    apply obeys_of_same _ hsame
    rw [Session.output, hmachine]
    exact hsize
  · obtain ⟨last, hreads⟩ := program?_eq_some_iff.mp hprogram
    cases (fills_interpret steps program).heeds
      (s.machine.learn (Program.bindings program).hops) hlimit hsize with
    | beyond o h => exact obeys_of_overflows hprogram hreads h
    | within hsize' hresult hacts =>
      apply obeys_of_same
      · rw [hreads.run, output_runWith]
        exact hsize'
      · rw [hreads.run, Reads.run (s := s.withLimit n) hreads]
        exact runWith_withLimit (s := { s with nextId := last }) hresult

end Limits

/-- **Output under a full sink is the beginning of the output, and the failure is not swallowed.** -/
theorem output_withLimit (n steps : Nat) (source : String) :
    Obeys n steps (start .unlimited) source :=
  obeys rfl (Nat.zero_le n)

/-- The second print goes beyond the limit, and the third is not reached. -/
example :
    (((start .unlimited).withLimit 6).run 20
      "\x7b print \"one\"; print \"two\"; print \"three\"; \x7d").2.output
        = "one\ntw".toUTF8 := by
  decide +kernel

end Session

end Treewalk
