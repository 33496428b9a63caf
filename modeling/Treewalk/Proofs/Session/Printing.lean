import Treewalk.Proofs.Evaluation.Filling
import Treewalk.Proofs.Session.Acceptance
import Treewalk.Proofs.Syntax.Printing

/-!
# Evaluating and printing

**A session that evaluates an expression does all that it does when it prints it, but for the
print.**  The expression is read alike, its references are numbered alike and bound alike, and it is
run on the same machine.  So an expression that fails makes its print fail in the same way, and one
that has a value leaves the same session, to which the print only adds a line of output.
-/

namespace Treewalk

/-! ### The machine -/

namespace Run

variable {steps : Nat} {e : Expr} {m after : Machine}

theorem interpret_print_of_ok {value : Value} (h : evaluate steps e m = .ok value after)
    (hlimit : m.sink.limit = none) (hflush : m.sink.flushFails = false) :
    interpret (steps + 1) [.print e] m
      = .ok ⟨⟩ { after with
        sink := { after.sink with written := after.sink.written ++ value.line } } := by
  obtain ⟨more, hmore⟩ := (fills_evaluate (n := 0) steps e).appends m
  rw [left_of_ok h] at hmore
  have hunlimited : after.sink.limit = none := by
    rw [hmore]
    exact hlimit
  have hroom : after.sink.hasRoom value.line.size = true := by
    unfold Sink.hasRoom
    rw [hunlimited]
  have hexecute : execute (steps + 1) (.print e) m
      = .ok .normal { after with sink := after.sink.write value.line } := by
    rw [execute, bind_of_ok h, bind_of_ok (write_of_hasRoom hroom)]
    rfl
  have htop : executeTop (steps + 1) [.print e] m
      = .ok ⟨⟩ { after with sink := after.sink.write value.line } := by
    rw [executeTop, bind_of_ok hexecute]
    rfl
  rw [interpret, bind_of_ok htop, ← Sink.write_of_unlimited hunlimited]
  apply flush_of_not_fails
  show ¬ after.sink.flushFails = true
  rw [hmore, hflush]
  exact Bool.false_ne_true

theorem interpret_print_of_error {halt : Halt} (h : evaluate steps e m = .error halt after) :
    interpret (steps + 1) [.print e] m = .error halt after := by
  have hexecute : execute (steps + 1) (.print e) m = .error halt after := by
    rw [execute, bind_of_error h]
  rw [interpret, executeTop, bind_of_error (bind_of_error hexecute)]

end Run

namespace Session

/-! ### Sources that are expressions -/

/-- A source is an expression without static errors, its references numbered from `first` on. -/
structure ReadsExpression (source : String) (first : Nat) (e : Expr) (last : Nat) : Prop where
  lexical : lexicalErrors source = []
  read : ∃ cursor, (Cursor.start (tokens source) first).expression = (some e, [], cursor)
    ∧ cursor.nextId = last
  bound : e.bindings.errors = []

section Reading

variable {source : String} {e : Expr} {last steps : Nat} {s : Session}

theorem ReadsExpression.evaluate (h : ReadsExpression source s.nextId e last) (steps : Nat) :
    s.evaluate steps source
      = runWith { s with nextId := last } e.bindings (Run.evaluate steps e) := by
  obtain ⟨cursor, hread, rfl⟩ := h.read
  have hearly : (earlyReports source []).isEmpty = true := by
    rw [earlyReports, h.lexical]
    rfl
  have hbound : e.bindings.errors.isEmpty = true := by rw [h.bound]; rfl
  simp only [Session.evaluate, hread, runChecked, hearly, hbound, if_true]

/-- An expression that is not rejected has none of the errors for which it could be. -/
theorem readsExpression_of_ne_rejected
    (h : ∀ reports, (s.evaluate steps source).1 ≠ .error (.rejected reports)) :
    ∃ e last, ReadsExpression source s.nextId e last := by
  rcases hread : (Cursor.start (tokens source) s.nextId).expression with ⟨found, errors, cursor⟩
  rcases found with _ | e
  · simp only [Session.evaluate, hread] at h
    exact absurd rfl (h _)
  · simp only [Session.evaluate, hread, runChecked] at h
    by_cases hearly : (earlyReports source errors).isEmpty = true
    · rw [if_pos hearly] at h
      by_cases hbound : e.bindings.errors.isEmpty = true
      · have hreports := List.append_eq_nil_iff.mp (List.isEmpty_iff.mp hearly)
        have hlexical := List.map_eq_nil_iff.mp hreports.1
        cases List.map_eq_nil_iff.mp hreports.2
        exact ⟨e, cursor.nextId, hlexical, ⟨cursor, hread, rfl⟩, List.isEmpty_iff.mp hbound⟩
      · rw [if_neg hbound] at h
        exact absurd rfl (h _)
    · rw [if_neg hearly] at h
      exact absurd rfl (h _)

/-- The source that prints an expression is the statement that prints it. -/
theorem ReadsExpression.printing {first : Nat} (h : ReadsExpression source first e last) :
    Reads (printing source) first [.print e] last := by
  obtain ⟨cursor, hread, rfl⟩ := h.read
  obtain ⟨behind, hprogram, hnext⟩ := Cursor.program_printing h.lexical hread
  exact ⟨lexicalErrors_printing h.lexical, ⟨behind, hprogram, hnext⟩, h.bound⟩

end Reading

/-- The session with more output. -/
def writing (bytes : ByteArray) (s : Session) : Session :=
  { s with machine := { s.machine with
    sink := { s.machine.sink with written := s.machine.sink.written ++ bytes } } }

/-- **Evaluating an expression agrees with printing it.**  Where it has a value, the print leaves the
    session of the evaluation with one line more in its output.  Where it fails, the print fails in
    the same way and leaves the same session. -/
theorem run_printing {s : Session} (hlimit : s.machine.sink.limit = none)
    (hflush : s.machine.sink.flushFails = false) {steps : Nat} {source : String}
    (hread : ∀ reports, (s.evaluate steps source).1 ≠ .error (.rejected reports)) :
    (∀ value later, s.evaluate steps source = (.ok value, later) →
        s.run (steps + 1) (printing source) = (.ok ⟨⟩, later.writing value.line))
      ∧ ∀ stop later, s.evaluate steps source = (.error stop, later) →
        s.run (steps + 1) (printing source) = (.error stop, later) := by
  obtain ⟨e, last, hreads⟩ := readsExpression_of_ne_rejected hread
  have hrun := hreads.printing.run (steps + 1)
  have hsame : Program.bindings [.print e] = e.bindings := rfl
  rw [hreads.evaluate, hrun, hsame]
  unfold runWith
  dsimp only
  rcases hbody : Run.evaluate steps e (s.machine.learn e.bindings.hops) with
    ⟨found, after⟩ | ⟨halt, after⟩
  · rw [Run.interpret_print_of_ok hbody hlimit hflush]
    constructor
    · intro value later h
      cases h
      rfl
    · intro stop later h
      cases h
  · rw [Run.interpret_print_of_error hbody]
    constructor
    · intro value later h
      cases h
    · intro stop later h
      cases h
      rfl

/-- A call that prints, with a comment behind it, in a session that has the function. -/
theorem run_printing_call :
    let s := ((start .unlimited).run 20 "fun f(a) { print a; return a; }").2
    let source := "f(\"x\") // twice"
    ∃ value later, s.evaluate 20 source = (.ok value, later)
      ∧ s.run 21 (printing source) = (.ok ⟨⟩, later.writing value.line)
      ∧ (later.writing value.line).output = "x\nx\n".toUTF8 := by
  intro s source
  have hok : (s.evaluate 20 source).1.isOk = true := by decide +kernel
  have hread : ∀ reports, (s.evaluate 20 source).1 ≠ .error (.rejected reports) := by
    intro reports hrejected
    rw [hrejected] at hok
    cases hok
  obtain ⟨hvalue, -⟩ := run_printing (s := s) (by decide +kernel) (by decide +kernel) hread
  have houtput : (s.run 21 (printing source)).2.output = "x\nx\n".toUTF8 := by decide +kernel
  rcases hevaluate : s.evaluate 20 source with ⟨stop | value, later⟩
  · rw [hevaluate] at hok
    cases hok
  · have hprints := hvalue _ later hevaluate
    rw [hprints] at houtput
    exact ⟨_, later, rfl, hprints, houtput⟩

end Session

end Treewalk
