import Treewalk.Proofs.Session.History
import Treewalk.Proofs.Token.Words

/-!
# The numbers of a whole session

**No two references of a session ever have the same number.**  The parser of a source goes on where
the parser of the source before it has stopped, and it has stopped behind every number that it gave,
to trees that it returned and to trees that it dropped.  What happens to a source afterwards makes
no difference: one that is rejected has used up its numbers like any other.
-/

namespace Treewalk

namespace Session

/-- The numbers of the references in the tree that the parser returns for a source, from left to
    right.  They are those of a source that is rejected as well. -/
def numbersOf (s : Session) : Request → List Nat
  | .run _ source => statementReferences (Cursor.start (tokens source) s.nextId).program.1
  | .evaluate _ source =>
    optionalReferences (Cursor.start (tokens source) s.nextId).expression.1

/-- The numbers of the references in all trees of a history. -/
def numbers (s : Session) : List Request → List Nat
  | [] => []
  | request :: rest => s.numbersOf request ++ numbers (s.perform request).2 rest

/-! ### A single source -/

section Sources

variable {α : Type} (s : Session) (bindings : Bindings) (body : Run α)

theorem nextId_runWith : (s.runWith bindings body).2.nextId = s.nextId := by
  unfold runWith
  dsimp only
  rcases body (s.machine.learn bindings.hops) with ⟨_, _⟩ | ⟨_, _⟩ <;> rfl

theorem nextId_runChecked (early : List Diagnostic) :
    (s.runChecked early bindings body).2.nextId = s.nextId := by
  unfold runChecked
  split
  · split
    · exact nextId_runWith s bindings body
    · rfl
  · rfl

/-- A program moves the next number to where its parser has stopped. -/
theorem nextId_run (steps : Nat) (source : String) :
    (s.run steps source).2.nextId
      = (Cursor.start (tokens source) s.nextId).program.2.2.nextId :=
  nextId_runChecked _ _ _ _

/-- A single expression moves the next number to where its parser has stopped. -/
theorem nextId_evaluate (steps : Nat) (source : String) :
    (s.evaluate steps source).2.nextId
      = (Cursor.start (tokens source) s.nextId).expression.2.2.nextId := by
  unfold evaluate
  rcases (Cursor.start (tokens source) s.nextId).expression with ⟨_ | value, errors, cursor⟩
  · rfl
  · exact nextId_runChecked _ _ _ _

/-- The numbers of one source lie between the next number before it and the next number after it. -/
theorem numbered_perform (request : Request) :
    s.nextId ≤ (s.perform request).2.nextId
      ∧ Numbered s.nextId (s.perform request).2.nextId (s.numbersOf request) := by
  cases request with
  | run steps source =>
    have hprogram := Cursor.program_numbered (Cursor.start_lexed source s.nextId)
    have hnext : (s.perform (.run steps source)).2.nextId = _ := nextId_run s steps source
    rw [hnext]
    exact ⟨hprogram.1, hprogram.2.1⟩
  | evaluate steps source =>
    have hexpression := Cursor.expression_numbered (Cursor.start_lexed source s.nextId)
    have hnext : (s.perform (.evaluate steps source)).2.nextId = _ :=
      nextId_evaluate s steps source
    rw [hnext]
    refine ⟨hexpression.1, ?_⟩
    rw [numbersOf]
    rcases hread : (Cursor.start (tokens source) s.nextId).expression.1 with _ | e
    · exact Numbered.nil _ _
    · exact (hexpression.2 e hread).1

end Sources

/-! ### Sources one after another -/

theorem numbered_afterAll (history : List Request) (s : Session) :
    s.nextId ≤ (s.afterAll history).nextId
      ∧ Numbered s.nextId (s.afterAll history).nextId (s.numbers history) := by
  induction history generalizing s with
  | nil => exact ⟨Nat.le_refl _, Numbered.nil _ _⟩
  | cons request rest ih =>
    obtain ⟨hle, hnumbered⟩ := numbered_perform s request
    obtain ⟨hleRest, hnumberedRest⟩ := ih (s.perform request).2
    exact ⟨Nat.le_trans hle hleRest, hnumbered.append hnumberedRest hle hleRest⟩

/-- In every history all references have different numbers, whatever becomes of its sources.  What
    is asked next has its numbers between the next number before it and the next number after it,
    and the next number never goes back. -/
theorem references_distinct (s : Session) (history : List Request) :
    (s.numbers history).Nodup
      ∧ ∀ request,
        (s.afterAll history).nextId ≤ ((s.afterAll history).perform request).2.nextId
          ∧ ∀ id ∈ (s.afterAll history).numbersOf request, (s.afterAll history).nextId ≤ id
            ∧ id < ((s.afterAll history).perform request).2.nextId := by
  refine ⟨(numbered_afterAll history s).2.nodup, fun request => ?_⟩
  obtain ⟨hle, hnumbered⟩ := numbered_perform (s.afterAll history) request
  exact ⟨hle, fun id hid => ⟨hnumbered.ge id hid, hnumbered.lt id hid⟩⟩

end Session

end Treewalk
