import Treewalk.Session

/-!
# Histories of sessions

**A history is what is asked of a session, one source after another.**  Each source has an
outcome: what the caller is given, and everything that was written up to then.  Sources that are
rejected or fail are part of a history like all others.
-/

namespace Treewalk

namespace Session

/-- Something that is asked of a session, with a bound on the steps that it may take. -/
inductive Request where
  | run (steps : Nat) (source : String)
  | evaluate (steps : Nat) (source : String)

/-- What can be seen of a source that was dealt with.  A value is seen as the text that `print`
    writes. -/
structure Outcome where
  result : Except Stop (Option String)
  output : ByteArray

/-- What the caller is given for a source, and the session behind it. -/
def perform (s : Session) : Request → Except Stop (Option String) × Session
  | .run steps source =>
    match s.run steps source with
    | (result, s) => (result.map fun _ => none, s)
  | .evaluate steps source =>
    match s.evaluate steps source with
    | (result, s) => (result.map fun value => some value.text, s)

/-- The outcomes of a history. -/
def outcomes (s : Session) : List Request → List Outcome
  | [] => []
  | request :: rest =>
    ⟨(s.perform request).1, (s.perform request).2.output⟩ :: outcomes (s.perform request).2 rest

/-- What can be seen of a source and of the session behind it. -/
structure Observation extends Outcome where
  resolvedCount : Nat

/-- What can be seen of a single source. -/
def observe (s : Session) (request : Request) : Observation where
  result := (s.perform request).1
  output := (s.perform request).2.output
  resolvedCount := (s.perform request).2.resolvedCount

/-- What can be seen of a history, source by source. -/
def observations (s : Session) : List Request → List Observation
  | [] => []
  | request :: rest => s.observe request :: observations (s.perform request).2 rest

/-- The session behind a history. -/
def afterAll (s : Session) (history : List Request) : Session :=
  history.foldl (fun s request => (s.perform request).2) s

/-- Making a result visible does not change why a source stopped. -/
theorem stop_of_map {α β : Type} {u : α → β} {result : Except Stop α} {stop : Stop}
    (h : result.map u = .error stop) : result = .error stop := by
  cases result with
  | error _ =>
    cases h
    rfl
  | ok _ => cases h

theorem run_of_perform {s : Session} {steps : Nat} {source : String} {stop : Stop}
    (h : (s.perform (.run steps source)).1 = .error stop) : (s.run steps source).1 = .error stop :=
  stop_of_map h

theorem evaluate_of_perform {s : Session} {steps : Nat} {source : String} {stop : Stop}
    (h : (s.perform (.evaluate steps source)).1 = .error stop) :
    (s.evaluate steps source).1 = .error stop :=
  stop_of_map h

/-- What holds of a session, and is not changed by anything that is asked of it, holds of
    every step of a history. -/
theorem of_mem_outcomes {P : Session → Prop} {Q : Except Stop (Option String) → Prop}
    (hstep : ∀ s request, P s → P (s.perform request).2 ∧ Q (s.perform request).1)
    {history : List Request} {s : Session} (hs : P s) {outcome : Outcome}
    (h : outcome ∈ s.outcomes history) : Q outcome.result := by
  induction history generalizing s with
  | nil => cases h
  | cons request rest ih =>
    obtain ⟨hnext, hresult⟩ := hstep s request hs
    rcases List.mem_cons.mp h with rfl | hrest
    · exact hresult
    · exact ih hnext hrest

theorem of_afterAll {P : Session → Prop} (hstep : ∀ s request, P s → P (s.perform request).2)
    (history : List Request) {s : Session} (hs : P s) : P (s.afterAll history) := by
  induction history generalizing s with
  | nil => exact hs
  | cons request rest ih => exact ih (hstep s request hs)

@[simp]
theorem length_observations (s : Session) (history : List Request) :
    (s.observations history).length = history.length := by
  induction history generalizing s with
  | nil => rfl
  | cons request rest ih => exact congrArg (· + 1) (ih (s.perform request).2)

theorem observations_append (s : Session) (before after : List Request) :
    s.observations (before ++ after)
      = s.observations before ++ (s.afterAll before).observations after := by
  induction before generalizing s with
  | nil => rfl
  | cons request rest ih => exact congrArg (s.observe request :: ·) (ih (s.perform request).2)

end Session

end Treewalk
