import Treewalk.Proofs.Session.Acceptance
import Treewalk.Proofs.Simulation.Respelling
import Treewalk.Proofs.Simulation.Runs
import Treewalk.Proofs.Syntax.Comparing

/-!
# Local names do not matter

**A variable of a block or function may be given any name that the program does not use yet.**  With
its declaration and exactly the references that mean it spelled anew, the program has no static
errors either and the same hop counts.  It writes the same bytes and ends in the same way.  Only a
fault that stands at the variable itself shows the new name.
-/

namespace Treewalk

open Correspondence

section Programs

variable {program : Program} {scope : Nat} {old new : String}

/-- The variable, as the program's own hop counts tell which references mean it. -/
abbrev Program.respelling (program : Program) (scope : Nat) (old new : String) : Respelling :=
  ⟨(Program.bindings program).hops, scope, old, new⟩

/-- In the new spelling a program has the same bindings. -/
theorem Program.lockstep_bindings (hwell : WellFormedStatements program)
    (hnodup : (statementReferences program).Nodup) (herr : (Program.bindings program).errors = [])
    (hvariable : (scope, old) ∈ program.localVariables) (hnew : IsUnreserved new)
    (havoids : AvoidedStatements new program) :
    Bindings.Lockstep (program.respelling scope old new) [] (Program.bindings program)
      (Program.bindings (program.respell (Program.bindings program).hops scope old new)) := by
  have hold : IsUnreserved old := isUnreserved_of_statementVariables program hwell _ hvariable
  have hplaced : PlacedStatements (Program.bindings program).hops (fun _ => True) [] program :=
    Program.placed hwell hnodup herr (fun _ _ => rfl) fun _ _ _ => trivial
  have hseparate := Program.separate (r := program.respelling scope old new) hwell herr hvariable
  exact lockstep_bindStatements hold hnew .topLevel program hwell havoids hseparate hplaced
    ⟨.nil, rfl, rfl, fun _ => rfl⟩

end Programs

namespace Session

/-- The result is the same, unless it is a fault at the old name; then it is the same fault at the
    new one. -/
def SpelledAnew (old new : String) (result result' : Except Stop PUnit) : Prop :=
  result' = result ∨ ∃ line cause,
    result = .error (.halted (.failure (.fault ⟨⟨old, line⟩, cause⟩)))
      ∧ result' = .error (.halted (.failure (.fault ⟨⟨new, line⟩, cause⟩)))

theorem spelledAnew_of_like {r : Respelling} {hold : IsUnreserved r.old} {hnew : IsUnreserved r.new}
    {halt halt' : Halt} (h : HaltLike (r.correspondence hold hnew) halt halt')
    (hbreach : ∀ breach, halt ≠ .breach breach) :
    SpelledAnew r.old r.new (.error (.halted halt)) (.error (.halted halt')) := by
  cases h with
  | sink error => exact Or.inl rfl
  | outOfSteps => exact Or.inl rfl
  | tooFewFrames => exact absurd rfl (hbreach _)
  | unboundAt hπ => exact absurd rfl (hbreach _)
  | @fault site site' cause π hπ hsite hoccurs =>
    obtain ⟨here, rfl⟩ := hπ
    have hline : site'.line = site.line := hsite.line
    have htext : site'.text = r.exchange here site.text := hsite.text
    have hspelled : site' = ⟨r.exchange here site.text, site.line⟩ := by rw [← htext, ← hline]
    rw [hspelled]
    rcases hoccurs with hrefl | hne
    · rw [hrefl]
      exact Or.inl rfl
    · rcases r.exchange_cases hne here with hsame | ⟨hold, hnew⟩
      · rw [hsame]
        exact Or.inl rfl
      · refine Or.inr ⟨site.line, cause, ?_, ?_⟩
        · rw [← hold]
        · rw [hnew]

theorem learn_start (outside : Outside) (table : HopTable) :
    (start outside).machine.learn table = { Machine.initial outside with hops := table } := by
  have hunion : (∅ : HopTable) ∪ table = table := by
    apply Std.ExtTreeMap.ext_getElem?
    intro id
    rw [getElem?_learn, Std.ExtTreeMap.getElem?_empty, Option.or_none]
  show { Machine.initial outside with hops := ∅ ∪ table } = _
  rw [hunion]

/-- Two runs that match are reported alike. -/
theorem spelledAnew_of_matches {r : Respelling} {hold : IsUnreserved r.old}
    {hnew : IsUnreserved r.new} {s : Session} {bindings bindings' : Bindings} {body body' : Run PUnit}
    {w : World} {Q : World → PUnit → PUnit → Prop}
    (h : Run.Matches (r.correspondence hold hnew) w body body' (s.machine.learn bindings.hops)
      (s.machine.learn bindings'.hops) Q)
    (hbreach : ∀ breach, (s.runWith bindings body).1 ≠ .error (.halted (.breach breach))) :
    (s.runWith bindings' body').2.output = (s.runWith bindings body).2.output
      ∧ SpelledAnew r.old r.new (s.runWith bindings body).1 (s.runWith bindings' body').1 := by
  unfold Run.Matches at h
  unfold runWith at hbreach ⊢
  dsimp only at hbreach ⊢
  rcases hrun : body (s.machine.learn bindings.hops) with ⟨_, after⟩ | ⟨halt, after⟩ <;>
    rcases hrun' : body' (s.machine.learn bindings'.hops) with ⟨_, after'⟩ | ⟨halt', after'⟩ <;>
    rw [hrun, hrun'] at h
  · obtain ⟨later, hfollows, -⟩ := h
    exact ⟨congrArg Sink.written hfollows.like.sink, Or.inl rfl⟩
  · exact h.elim
  · exact h.elim
  · obtain ⟨later, hfollows, hhalt⟩ := h
    rw [hrun] at hbreach
    refine ⟨congrArg Sink.written hfollows.like.sink, spelledAnew_of_like hhalt ?_⟩
    rintro breach rfl
    exact hbreach breach rfl

/-- Spelling a variable of a scope anew, where it is declared and where it is meant, leaves the
    bindings as they are, and cannot be seen when the program runs. -/
theorem respelling_unseen {source : String} {program : Program} {last : Nat}
    (h : Reads source 0 program last) {scope : Nat} {old new : String}
    (hvariable : (scope, old) ∈ program.localVariables) (hnew : IsUnreserved new)
    (havoids : AvoidedStatements new program) :
    let bindings := Program.bindings program
    let program' := program.respell bindings.hops scope old new
    let bindings' := Program.bindings program'
    bindings'.errors = [] ∧ bindings'.hops = bindings.hops ∧ bindings'.topLevel = bindings.topLevel
      ∧ ∀ outside steps,
        let before := (start outside).run steps source
        let after := runWith { start outside with nextId := last } bindings'
          (Run.interpret steps program')
        after.2.output = before.2.output ∧ SpelledAnew old new before.1 after.1 := by
  intro bindings program' bindings'
  have hwell := h.wellFormed
  have hold : IsUnreserved old := isUnreserved_of_statementVariables program hwell _ hvariable
  have hlockstep := Program.lockstep_bindings hwell h.nodup h.bound hvariable hnew havoids
  refine ⟨hlockstep.errors h.bound, hlockstep.hops, hlockstep.topLevel, fun outside steps => ?_⟩
  intro before after
  let r := program.respelling scope old new
  have hseparate : SeparateStatements r false 0 program := Program.separate hwell h.bound hvariable
  have hlike : StatementsLike (r.correspondence hold hnew) [] program program' :=
    statementsLike_respell hold hnew [] 0 program havoids hseparate
  have hstart : MachineLike (r.correspondence hold hnew) [(.same, none)]
      ((start outside).machine.learn bindings.hops) ((start outside).machine.learn bindings'.hops) := by
    rw [learn_start, learn_start, hlockstep.hops]
    exact machineLike_initial (r.correspondence hold hnew) outside
  have hmatches := Run.matches_interpret steps hstart .globals hlike
  have hrun : before = runWith { start outside with nextId := last } bindings
      (Run.interpret steps program) := Reads.run (s := start outside) h steps
  have hbreach := ((sound_start outside).run steps source).2
  rw [show (start outside).run steps source = _ from hrun] at hbreach
  rw [hrun]
  exact spelledAnew_of_matches (s := { start outside with nextId := last }) hmatches hbreach

/-- The parameter is spelled anew, and the name that the function calls itself is not. -/
theorem respelling_unseen_parameter :
    let source := "fun f(a) { a = f; }"
    let body : Stmt := .expression (.assign ⟨"a", 1⟩ 2 (.variable ⟨"f", 1⟩ 1))
    let program : Program := [.function ⟨⟨"f", 1⟩, [⟨"a", 1⟩], [body]⟩]
    let bindings := Program.bindings (program.respell (Program.bindings program).hops 0 "a" "b")
    Reads source 0 program 3 ∧ (0, "a") ∈ program.localVariables ∧ IsUnreserved "b"
      ∧ AvoidedStatements "b" program ∧ bindings.errors = [] := by
  intro source body program bindings
  have hreads : Reads source 0 program 3 := by
    refine ⟨by decide +kernel, ⟨(Cursor.start (tokens source) 0).program.2.2, ?_, ?_⟩, ?_⟩ <;>
      decide +kernel
  have hvariable : (0, "a") ∈ program.localVariables := by decide
  have hnew : IsUnreserved "b" := rfl
  have havoids : AvoidedStatements "b" program := by
    simp [AvoidedStatements, Stmt.Avoids, FunctionDecl.Avoids, Expr.Avoids, program, body]
  exact ⟨hreads, hvariable, hnew, havoids, (respelling_unseen hreads hvariable hnew havoids).1⟩

end Session

end Treewalk
