import Treewalk.Proofs.Binding.Checking
import Treewalk.Proofs.Evaluation.Moments
import Treewalk.Proofs.Session.Restoration

/-!
# Returns

**A `return` ends the call that it stands in: everything around it in the body of the function is
left at once, and nothing outside of that body.**  What a `return` may do is checked before the run,
by the function around it.  In the run it is an ordinary flow, which every block, branch and loop
hands on as it is; a program that is run statement by statement does not look at flows at all.  The
check and the run agree, so that at the top level there is never a flow that would have to be
looked at.
-/

namespace Treewalk

/-! ### Flows that are allowed -/

/-- May code of this function end with the flow? -/
def Flow.Allowed (inFunction : FunctionContext) : Flow → Prop
  | .normal => True
  | .returned value => inFunction ≠ .none ∧ (inFunction = .initializer → value = .nil)

namespace Run

/-- What runs in another frame has a result only if it has the same result there. -/
theorem ok_of_within_eq_ok {α : Type} {frame : FrameId} {body : Run α} {m after : Machine} {a : α}
    (h : within frame body m = .ok a after) :
    ∃ inner, body { m with current := frame } = .ok a inner
      ∧ after = { inner with current := m.current } := by
  unfold within at h
  rcases hbody : body { m with current := frame } with ⟨b, inner⟩ | ⟨halt, inner⟩
  · simp only [hbody] at h
    cases h
    exact ⟨inner, rfl, rfl⟩
  · simp only [hbody] at h
    cases h

theorem within_of_ok {α : Type} {frame : FrameId} {body : Run α} {m inner : Machine} {a : α}
    (h : body { m with current := frame } = .ok a inner) :
    within frame body m = .ok a { inner with current := m.current } := by
  unfold within
  simp only [h]

/-- An expression that is missing has the value `nil`. -/
theorem eq_nil_of_evaluateOptional {steps : Nat} {m after : Machine} {value : Value}
    (h : evaluateOptional steps none m = .ok value after) : value = .nil := by
  cases steps with
  | zero => cases h
  | succ steps =>
    cases h
    rfl

mutual

theorem allowed_execute {inFunction : FunctionContext} : ∀ (steps : Nat) {s : Stmt}
    {m after : Machine} {flow : Flow}, s.Checked inFunction →
    execute steps s m = .ok flow after → flow.Allowed inFunction
  | 0, _, _, _, _, _, h => nomatch h
  | steps + 1, s, m, after, flow, hs, h => by
    cases s with
    | expression e =>
      rw [execute] at h
      obtain ⟨_, _, -, h⟩ := ok_of_bind_eq_ok h
      cases h
      trivial
    | print e =>
      rw [execute] at h
      obtain ⟨_, _, -, h⟩ := ok_of_bind_eq_ok h
      obtain ⟨_, _, -, h⟩ := ok_of_bind_eq_ok h
      cases h
      trivial
    | var name value =>
      rw [execute] at h
      obtain ⟨_, _, -, h⟩ := ok_of_bind_eq_ok h
      obtain ⟨_, _, -, h⟩ := ok_of_bind_eq_ok h
      obtain ⟨_, _, -, h⟩ := ok_of_bind_eq_ok h
      cases h
      trivial
    | block body =>
      rw [execute] at h
      obtain ⟨_, _, -, h⟩ := ok_of_bind_eq_ok h
      obtain ⟨_, _, -, h⟩ := ok_of_bind_eq_ok h
      obtain ⟨inner, h, -⟩ := ok_of_within_eq_ok h
      rw [Stmt.Checked] at hs
      exact allowed_executeAll steps hs h
    | ifElse condition thenBranch elseBranch =>
      cases elseBranch with
      | none =>
        rw [execute] at h
        rw [Stmt.Checked] at hs
        obtain ⟨value, middle, -, h⟩ := ok_of_bind_eq_ok h
        split at h
        · exact allowed_execute steps hs h
        · cases h
          trivial
      | some elseBranch =>
        rw [execute] at h
        rw [Stmt.Checked] at hs
        obtain ⟨value, middle, -, h⟩ := ok_of_bind_eq_ok h
        split at h
        · exact allowed_execute steps hs.1 h
        · exact allowed_execute steps hs.2 h
    | whileLoop condition body =>
      rw [execute] at h
      obtain ⟨value, middle, -, h⟩ := ok_of_bind_eq_ok h
      have hbody := hs
      rw [Stmt.Checked] at hbody
      split at h
      · obtain ⟨round, last, hround, h⟩ := ok_of_bind_eq_ok h
        cases round with
        | normal => exact allowed_execute steps hs h
        | returned value =>
          cases h
          exact allowed_execute steps hbody hround
      · cases h
        trivial
    | function declaration =>
      rw [execute] at h
      obtain ⟨_, _, -, h⟩ := ok_of_bind_eq_ok h
      cases h
      trivial
    | «return» line value =>
      rw [execute] at h
      obtain ⟨result, middle, hvalue, h⟩ := ok_of_bind_eq_ok h
      cases h
      rw [Stmt.Checked] at hs
      refine ⟨hs.1, fun hinit => ?_⟩
      rw [hs.2 hinit] at hvalue
      exact eq_nil_of_evaluateOptional hvalue
    | «class» name superclass methods =>
      rw [execute] at h
      obtain ⟨_, _, -, h⟩ := ok_of_bind_eq_ok h
      cases h
      trivial

theorem allowed_executeAll {inFunction : FunctionContext} : ∀ (steps : Nat) {body : List Stmt}
    {m after : Machine} {flow : Flow}, CheckedStatements inFunction body →
    executeAll steps body m = .ok flow after → flow.Allowed inFunction
  | 0, _, _, _, _, _, h => nomatch h
  | _ + 1, [], _, _, _, _, h => by
    cases h
    trivial
  | steps + 1, s :: rest, m, after, flow, hbody, h => by
    rw [executeAll] at h
    rw [CheckedStatements] at hbody
    obtain ⟨first, middle, hfirst, h⟩ := ok_of_bind_eq_ok h
    cases first with
    | normal => exact allowed_executeAll steps hbody.2 h
    | returned value =>
      cases h
      exact allowed_execute steps hbody.1 hfirst

end

end Run

/-! ### What a return leaves -/

theorem Run.Restores.of_ok {α : Type} {x : Run α} (hx : Run.Restores x) {m after : Machine} {a : α}
    (h : x m = .ok a after) : after.current = m.current := by
  rw [← Run.left_of_ok h]
  exact hx m

/-- A machine that is in a frame already need not be put there. -/
theorem Machine.with_current {m : Machine} {frame : FrameId} (h : m.current = frame) :
    { m with current := frame } = m := by
  rw [← h]

/-- Is the part a statement or a list of statements? -/
def Task.IsStatement : Task → Prop
  | .execute _ => True
  | .executeAll _ => True
  | _ => False

namespace Moment

open Run

/-- The statement ends with a return of the value. -/
def Returns (a : Moment) (value : Value) (after : Machine) : Prop :=
  match a.task with
  | .execute s => execute a.steps s a.machine = .ok (.returned value) after
  | .executeAll body => executeAll a.steps body a.machine = .ok (.returned value) after
  | _ => False

/-- The second statement runs as a part of the first, and not in the body of a function that is
    called on the way. -/
abbrev Encloses : Moment → Moment → Prop :=
  Relation.ReflTransGen fun a b => a.Starts b ∧ a.task.IsStatement ∧ b.task.IsStatement

theorem Returns.current {a : Moment} {value : Value} {after : Machine} (h : a.Returns value after) :
    after.current = a.machine.current := by
  obtain ⟨task, steps, m⟩ := a
  cases task with
  | execute s => exact (restores_execute steps s).of_ok h
  | executeAll body =>
    have hall : Restores (executeAll steps body) := restores_of_keeps fun m =>
      confined_executeAll trivial steps body (.everything m.store) trivial
    exact hall.of_ok h
  | _ => exact h.elim

/-- A statement that returns makes the one that started it return, with nothing done in between. -/
theorem Returns.outward {a b : Moment} (hstarts : a.Starts b) (ha : a.task.IsStatement)
    {value : Value} {after : Machine} (h : b.Returns value after) :
    a.Returns value { after with current := a.machine.current } := by
  have hcurrent := h.current
  cases hstarts
  case block body n m middle frame hframe =>
    have hbody : executeAll n body { middle with current := frame } = .ok (.returned value) after := h
    have hmiddle : middle.current = m.current := by
      cases hframe
      rfl
    show execute (n + 1) (.block body) m = _
    rw [execute, blockFrame_bind, bind_of_ok hframe, within_of_ok hbody, hmiddle]
  case thenBranch e thenBranch elseBranch n m middle condition he hcondition =>
    have hbranch : execute n thenBranch middle = .ok (.returned value) after := h
    have hback := hcurrent.trans ((restores_evaluate n e).of_ok he)
    show execute (n + 1) (.ifElse e thenBranch elseBranch) m = _
    rw [Machine.with_current hback]
    cases elseBranch <;> rw [execute, bind_of_ok he, if_pos hcondition, hbranch]
  case elseBranch e thenBranch elseBranch n m middle condition he hcondition =>
    have hbranch : execute n elseBranch middle = .ok (.returned value) after := h
    have hback := hcurrent.trans ((restores_evaluate n e).of_ok he)
    show execute (n + 1) (.ifElse e thenBranch (some elseBranch)) m = _
    rw [Machine.with_current hback, execute, bind_of_ok he, hcondition]
    exact hbranch
  case round e body n m middle condition he hcondition =>
    have hbody : execute n body middle = .ok (.returned value) after := h
    have hback := hcurrent.trans ((restores_evaluate n e).of_ok he)
    show execute (n + 1) (.whileLoop e body) m = _
    rw [Machine.with_current hback, execute, bind_of_ok he, if_pos hcondition, bind_of_ok hbody]
    rfl
  case again e body n m middle last condition he hcondition hbody =>
    have hagain : execute n (.whileLoop e body) last = .ok (.returned value) after := h
    have hback := hcurrent.trans (((restores_execute n body).of_ok hbody).trans
      ((restores_evaluate n e).of_ok he))
    show execute (n + 1) (.whileLoop e body) m = _
    rw [Machine.with_current hback, execute, bind_of_ok he, if_pos hcondition, bind_of_ok hbody]
    exact hagain
  case head s rest n m =>
    have hs : execute n s m = .ok (.returned value) after := h
    show executeAll (n + 1) (s :: rest) m = _
    rw [Machine.with_current hcurrent, executeAll, bind_of_ok hs]
    rfl
  case tail s rest n m middle hs =>
    have hrest : executeAll n rest middle = .ok (.returned value) after := h
    have hback := hcurrent.trans ((restores_execute n s).of_ok hs)
    show executeAll (n + 1) (s :: rest) m = _
    rw [Machine.with_current hback, executeAll, bind_of_ok hs]
    exact hrest
  -- An expression does not return, and what starts a call is no statement.
  all_goals first | exact ha.elim | exact h.elim

/-- However deep a statement lies in another, its return is that of the other. -/
theorem Returns.outermost {a b : Moment} (hencloses : a.Encloses b) {value : Value}
    {after : Machine} (h : b.Returns value after) :
    a.Returns value { after with current := a.machine.current } := by
  induction hencloses using Relation.ReflTransGen.head_induction_on with
  | refl => rwa [Machine.with_current h.current]
  | head hstarts _ ih => exact ih.outward hstarts.1 hstarts.2.1

end Moment

/-! ### Calls -/

open Run Moment in
/-- In a program without binding errors no statement of the top level returns, and no initializer
    returns anything but `nil`, whatever the machine is.  In the body of a function, the machine in
    which a `return` has its value is the one that the whole call leaves: nothing of the body is run
    any more, neither a later statement nor the increment of a loop, and the caller just has a value. -/
theorem return_never_escapes {program : Program}
    (haccepted : (Program.bindings program).errors = []) :
    (∀ s ∈ program, ∀ (steps : Nat) (m after : Machine) (flow : Flow),
        execute steps s m = .ok flow after → flow = .normal)
      ∧ (∀ method ∈ statementMethods program, method.isInitializer = true →
        ∀ (steps : Nat) (m after : Machine) (value : Value),
        executeAll steps method.body m = .ok (.returned value) after → value = .nil)
      ∧ ∀ (f : Closure) (args : List Value) (n : Nat) (m entered : Machine) (frame : FrameId),
        callFrame f args m = .ok frame entered →
        ∀ (line k : Nat) (e : Option Expr) (inner after : Machine) (value : Value),
        Encloses ⟨.executeAll f.declaration.body, n, { entered with current := frame }⟩
          ⟨.execute (.return line e), k + 1, inner⟩ →
        evaluateOptional k e inner = .ok value after →
        executeAll n f.declaration.body { entered with current := frame }
            = .ok (.returned value) { after with current := frame }
          ∧ invoke (n + 1) f args m
            = (if f.isInitializer then within f.frame (readAt 0 "this") else pure value)
              { after with current := m.current } := by
  have hchecked := Program.checked haccepted
  refine ⟨fun s hs steps m after flow h => ?_, fun method hmethod hinit steps m after value h => ?_, ?_⟩
  · have hallowed := allowed_execute steps (hchecked.of_mem hs) h
    cases flow with
    | normal => rfl
    | returned value => exact absurd rfl hallowed.1
  · have hbody := hchecked.statementMethods method hmethod
    rcases method with ⟨name, params, body⟩
    rw [FunctionDecl.methodContext, if_pos hinit, FunctionDecl.Checked] at hbody
    exact (allowed_executeAll steps hbody.2 h).2 rfl
  · intro f args n m entered frame hframe line k e inner after value hencloses hvalue
    have hreturn : Moment.Returns ⟨.execute (.return line e), k + 1, inner⟩ value after := by
      show execute (k + 1) (.return line e) inner = _
      rw [execute, bind_of_ok hvalue]
      rfl
    have hbody : executeAll n f.declaration.body { entered with current := frame }
        = .ok (.returned value) { after with current := frame } := hreturn.outermost hencloses
    have hentered : entered.current = m.current :=
      (restores_of_keeps fun m => confined_callFrame (.everything m.store) trivial
        fun _ _ _ _ => trivial).of_ok hframe
    refine ⟨hbody, ?_⟩
    rw [invoke, callFrame_bind, bind_of_ok hframe, bind_of_ok (within_of_ok hbody), hentered]

/-- A function with a loop whose body is a block that returns. -/
def returningLoop : Program :=
  let body : Stmt := .block [.return 1 (some (.literal .true)), .print (.literal .nil)]
  [.function ⟨⟨"f", 1⟩, [], [.whileLoop (.literal .true) body]⟩]

theorem return_never_escapes_loop :
    (Program.bindings returningLoop).errors = []
      ∧ ∀ s ∈ returningLoop, ∀ (steps : Nat) (m after : Machine) (flow : Flow),
        Run.execute steps s m = .ok flow after → flow = .normal := by
  have haccepted : (Program.bindings returningLoop).errors = [] := by decide +kernel
  exact ⟨haccepted, (return_never_escapes haccepted).1⟩

end Treewalk
