import Treewalk.Proofs.Evaluation.ConfinedRuns
import Treewalk.Proofs.Session.History

/-!
# Every run comes back to its frame

**However a part of a program ends - normally, with a return, or with a failure - names are
declared afterwards in the same frame as before.**  Bodies of blocks and functions run in a frame of
their own and come back by construction.  A class declaration could enter the frame around `super`
to make its methods there, and leave it again afterwards; nothing can fail between the two, and the
declaration comes to the same as one that stays where it is and hands the frame on.

A session starts in the global frame, so it is there again after every source, be it rejected, run
to its end or stopped half-way.
-/

namespace Treewalk

namespace Run

/-- Wherever it starts and however it ends, the run comes back to its frame. -/
def Restores {α : Type} (x : Run α) : Prop :=
  ∀ m : Machine, (left x m).current = m.current

section Runs

variable {α : Type} {x : Run α}

/-- What keeps to any set of cells comes back to its frame; nothing is outside of the set of all
    of them. -/
theorem restores_of_keeps {Q : α → Machine → Prop}
    (h : ∀ m : Machine, Keeps (confinement (fun _ => True) m.store) x m Q) : Restores x :=
  fun m => (h m).left.2

theorem restores_execute (steps : Nat) (s : Stmt) : Restores (execute steps s) :=
  restores_of_keeps fun m => confined_execute trivial steps s (.everything m.store) trivial

theorem restores_evaluate (steps : Nat) (e : Expr) : Restores (evaluate steps e) :=
  restores_of_keeps fun m => confined_evaluate trivial steps e (.everything m.store) trivial

theorem restores_call (steps : Nat) (callee : Value) (line : Nat) (args : List Value) :
    Restores (call steps callee line args) :=
  restores_of_keeps fun m => confined_call trivial steps line (.everything m.store)
    (fun _ _ => trivial) fun _ _ _ _ => trivial

theorem restores_invoke (steps : Nat) (f : Closure) (args : List Value) :
    Restores (invoke steps f args) :=
  restores_of_keeps fun m => confined_invoke trivial steps (.everything m.store) trivial
    fun _ _ _ _ => trivial

theorem restores_instantiate (steps : Nat) (c : ClassValue) (args : List Value) :
    Restores (instantiate steps c args) :=
  restores_of_keeps fun m => confined_instantiate trivial steps (.everything m.store)
    (fun _ _ => trivial) fun _ _ _ _ => trivial

theorem restores_within (f : FrameId) (body : Run α) : Restores (within f body) := by
  intro m
  unfold left within
  rcases body { m with current := f } with _ | _ <;> rfl

theorem Restores.bind {β : Type} {f : α → Run β} (hx : Restores x) (hf : ∀ a, Restores (f a)) :
    Restores (x >>= f) := by
  intro m
  rcases hm : x m with ⟨a, middle⟩ | ⟨halt, middle⟩
  · rw [left_bind_of_ok hm, hf a middle, ← left_of_ok hm, hx m]
  · rw [left_of_error (bind_of_error hm), ← left_of_error hm, hx m]

theorem restores_flush : Restores flush :=
  restores_of_keeps fun m => confined_flush (.everything m.store)

theorem restores_executeTop (steps : Nat) (program : Program) :
    Restores (executeTop steps program) := by
  induction program with
  | nil => exact fun _ => rfl
  | cons s rest ih =>
    rw [executeTop]
    exact (restores_execute steps s).bind fun _ => ih

theorem restores_interpret (steps : Nat) (program : Program) :
    Restores (interpret steps program) :=
  (restores_executeTop steps program).bind fun _ => restores_flush

end Runs

/-! ### A class declaration that switches frames -/

/-- Goes on in another frame. -/
def switchTo (f : FrameId) : Run PUnit := fun m =>
  .ok ⟨⟩ { m with current := f }

/-- Goes on in a new frame that binds `super`, if there is a superclass. -/
def enterSuper : Option ClassValue → Run PUnit
  | none => return ⟨⟩
  | some parent => do
    let frame ← child (← currentFrame)
    define frame "super" (.class parent)
    switchTo frame

/-- Declares a class and makes its methods in the frame that is entered for them. -/
def declareClassInside (name : Name) (superclass : Option Reference)
    (methods : List FunctionDecl) : Run PUnit := do
  let parent ← superclassOf superclass
  define (← currentFrame) name.text .nil
  let enclosing ← currentFrame
  enterSuper parent
  let table := methodTable (← currentFrame) methods
  switchTo enclosing
  let value ← newClass name.text parent table
  assignFrom (← currentFrame) name (.class value)

/-- The frame that is entered is the one that a declaration otherwise hands on. -/
theorem enterSuper_ok (parent : Option ClassValue) (m : Machine) :
    ∃ inner entered, enterSuper parent m = .ok ⟨⟩ { entered with current := inner }
      ∧ methodFrame m.current parent m = .ok inner entered ∧ entered.current = m.current := by
  cases parent with
  | none => exact ⟨m.current, m, rfl, rfl, rfl⟩
  | some parent => exact ⟨_, _, rfl, rfl, rfl⟩

theorem newClass_ok (name : String) (parent : Option ClassValue)
    (methods : Std.ExtTreeMap String Closure) (m : Machine) :
    ∃ c, newClass name parent methods m = .ok c { m with identities := m.identities + 1 } := by
  cases parent <;> exact ⟨_, rfl⟩

theorem define_ok (f : FrameId) (name : String) (value : Value) (m : Machine) :
    ∃ after, define f name value m = .ok ⟨⟩ after ∧ after.current = m.current :=
  ⟨_, rfl, rfl⟩

/-- The switch is undone before anything can tell. -/
theorem declareClassInside_eq (name : Name) (superclass : Option Reference)
    (methods : List FunctionDecl) :
    declareClassInside name superclass methods = declareClass name superclass methods := by
  funext m
  unfold declareClassInside declareClass
  rcases hparent : superclassOf superclass m with ⟨parent, m₁⟩ | ⟨halt, m₁⟩
  · have hcurrent : ∀ m : Machine, currentFrame m = .ok m.current m := fun _ => rfl
    have hswitch : ∀ m : Machine, ∀ f, switchTo f m = .ok ⟨⟩ { m with current := f } :=
      fun _ _ => rfl
    obtain ⟨m₂, hdefine, hsame₂⟩ := define_ok m₁.current name.text .nil m₁
    obtain ⟨inner, m₃, henter, hframe, hsame₃⟩ := enterSuper_ok parent m₂
    obtain ⟨c, hc⟩ := newClass_ok name.text parent (methodTable inner methods) m₃
    rw [bind_of_ok hparent, bind_of_ok hparent, bind_of_ok (hcurrent m₁), bind_of_ok (hcurrent m₁),
      bind_of_ok hdefine, bind_of_ok hdefine, bind_of_ok (hcurrent m₂), bind_of_ok henter,
      bind_of_ok (hcurrent _), ← hsame₂, bind_of_ok hframe, bind_of_ok hc]
    -- The frame that was entered is left here, and the machine is the one without the switch.
    show (switchTo m₂.current >>= _) _ = _
    rw [bind_of_ok (hswitch _ _), ← hsame₃]
    show (newClass name.text parent (methodTable inner methods) >>= _) m₃ = _
    rw [bind_of_ok hc]
    rfl
  · rw [bind_of_error hparent, bind_of_error hparent]

end Run

/-! ### Sessions -/

namespace Session

variable {α : Type} {body : Run α}

theorem current_runWith (s : Session) (bindings : Bindings) (hbody : Run.Restores body) :
    (s.runWith bindings body).2.machine.current = s.machine.current := by
  obtain ⟨machine, nextId⟩ := s
  have hcurrent := hbody (machine.learn bindings.hops)
  unfold runWith
  rcases hrun : body (machine.learn bindings.hops) with ⟨a, after⟩ | ⟨halt, after⟩
  · rw [Run.left_of_ok hrun] at hcurrent
    simp only [hrun]
    exact hcurrent
  · rw [Run.left_of_error hrun] at hcurrent
    simp only [hrun]
    exact hcurrent

theorem current_runChecked (s : Session) (early : List Diagnostic) (bindings : Bindings)
    (hbody : Run.Restores body) :
    (s.runChecked early bindings body).2.machine.current = s.machine.current := by
  unfold runChecked
  split
  · split
    · exact current_runWith s bindings hbody
    · rfl
  · rfl

theorem current_run (s : Session) (steps : Nat) (source : String) :
    (s.run steps source).2.machine.current = s.machine.current := by
  unfold Session.run
  rcases (Cursor.start (tokens source) s.nextId).program with ⟨program, errors, cursor⟩
  exact current_runChecked _ _ _ (Run.restores_interpret steps program)

theorem current_evaluate (s : Session) (steps : Nat) (source : String) :
    (s.evaluate steps source).2.machine.current = s.machine.current := by
  unfold Session.evaluate
  rcases (Cursor.start (tokens source) s.nextId).expression with ⟨value?, errors, cursor⟩
  rcases value? with _ | value
  · rfl
  · exact current_runChecked _ _ _ (Run.restores_evaluate steps value)

/-- Every source leaves the session in the frame that it was in. -/
theorem current_perform (s : Session) (request : Request) :
    (s.perform request).2.machine.current = s.machine.current := by
  rcases request with ⟨steps, source⟩ | ⟨steps, source⟩
  · exact current_run s steps source
  · exact current_evaluate s steps source

/-- Every statement, body, expression, call, activation and instantiation comes back to its frame,
    also where a class declaration switches frames for its methods; and behind every source of a
    session names are declared in the global frame. -/
theorem frames_restored :
    (∀ steps s, Run.Restores (Run.execute steps s))
      ∧ (∀ steps f body, Run.Restores (Run.within f (Run.executeAll steps body)))
      ∧ (∀ steps e, Run.Restores (Run.evaluate steps e))
      ∧ (∀ steps callee line args, Run.Restores (Run.call steps callee line args))
      ∧ (∀ steps f args, Run.Restores (Run.invoke steps f args))
      ∧ (∀ steps c args, Run.Restores (Run.instantiate steps c args))
      ∧ (∀ name superclass methods, Run.declareClassInside name superclass methods =
          Run.declareClass name superclass methods)
      ∧ (∀ s request, (perform s request).2.machine.current = s.machine.current)
      ∧ ∀ outside history, ((start outside).afterAll history).machine.current = Store.globals := by
  refine ⟨Run.restores_execute, fun _ _ _ => Run.restores_within _ _, Run.restores_evaluate,
    Run.restores_call, Run.restores_invoke, Run.restores_instantiate, Run.declareClassInside_eq,
    current_perform, fun outside history => ?_⟩
  exact of_afterAll (fun s request h => (current_perform s request).trans h) history rfl

end Session

end Treewalk
