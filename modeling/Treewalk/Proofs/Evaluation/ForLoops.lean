import Treewalk.Proofs.Binding.Placement
import Treewalk.Proofs.Evaluation.Entering
import Treewalk.Proofs.Syntax.Renumbering

/-!
# What a `for` statement means

**A `for` statement runs its initializer once, in a frame that all rounds share, and then round
after round: the condition, the body, the increment.**  This is its meaning, written down as a loop of
its own.  The condition, the body and the increment are code in the same scopes, those behind the
initializer: each of them sees the variable of the loop, and none of them what the others declare.

The parser knows no such loop.  It makes a `while` statement of the clauses, and joins body and
increment to a block, so that each round opens one more frame.
-/

namespace Treewalk

/-- The clauses of a `for` statement, and its body. -/
structure ForClauses where
  initializer : Option Stmt
  condition : Option Expr
  increment : Option Expr
  body : Stmt

namespace ForClauses

/-- The same clauses with other references. -/
def move (σ : Shift) (clauses : ForClauses) : ForClauses where
  initializer := clauses.initializer.map (Stmt.move σ)
  condition := clauses.condition.map (Expr.move σ)
  increment := clauses.increment.map (Expr.move σ)
  body := clauses.body.move σ

/-- The scopes around condition, increment and body.  The initializer has a scope of its own, which
    they share with it. -/
def scopes (clauses : ForClauses) (around : List Scope) : List Scope :=
  match clauses.initializer with
  | some initializer => initializer.scopesAfter (∅ :: around)
  | none => around

/-- Condition, increment and body are in their places, all in the same scopes. -/
structure PlacedRounds (table : HopTable) (inner : List Scope) (clauses : ForClauses) : Prop where
  condition : ∀ e, clauses.condition = some e → e.Placed table inner
  increment : ∀ e, clauses.increment = some e → e.Placed table inner
  body : clauses.body.Placed table (fun _ => True) inner

/-- The references of all clauses are in their places. -/
structure Placed (table : HopTable) (around : List Scope) (clauses : ForClauses) : Prop where
  initializer : ∀ s, clauses.initializer = some s →
    s.Placed table (fun _ => True) (∅ :: around)
  rounds : clauses.PlacedRounds table (clauses.scopes around)

/-! ### What the parser makes of the clauses -/

/-- The statement that stands for the clauses. -/
def statement (clauses : ForClauses) : Stmt :=
  Parser.forLoop clauses.initializer clauses.condition clauses.increment clauses.body

/-- Body and increment. -/
def round (clauses : ForClauses) : Stmt :=
  match clauses.increment with
  | some increment => .block [clauses.body, .expression increment]
  | none => clauses.body

/-- All rounds. -/
def rounds (clauses : ForClauses) : Stmt :=
  .whileLoop (clauses.condition.getD (.literal .true)) clauses.round

theorem statement_eq (clauses : ForClauses) : clauses.statement =
    match clauses.initializer with
    | some initializer => .block [initializer, clauses.rounds]
    | none => clauses.rounds := by
  obtain ⟨initializer, condition, increment, body⟩ := clauses
  cases initializer <;> cases increment <;> rfl

end ForClauses

namespace Parser

/-- The clauses behind a `for` as they are written, and the body behind them. -/
def forClauses : (steps : Nat) → Parser ForClauses
  | 0 => fail .outOfSteps
  | steps + 1 => do
    let _ ← expect .leftParen .forParen
    let initializer ← forInitializer steps
    let condition ← expressionBefore steps .semicolon
    let _ ← expect .semicolon .loopConditionEnd
    let increment ← expressionBefore steps .rightParen
    let _ ← expect .rightParen .forClosing
    return ⟨initializer, condition, increment, ← statement steps⟩

/-- The parser reads the clauses and makes the statement of them. -/
theorem forStatement_eq (steps : Nat) :
    forStatement steps = ForClauses.statement <$> forClauses steps := by
  cases steps with
  | zero => rfl
  | succ steps =>
    rw [forStatement, forClauses]
    simp only [map_bind, map_pure]
    rfl

end Parser

namespace ForClauses

section Scopes

variable {table : HopTable} {kept : Nat → Prop} {around inner : List Scope} {clauses : ForClauses}

/-- The initializer is placed in a scope of its own, and all rounds in the scopes behind it. -/
theorem placed_rounds (h : clauses.statement.Placed table kept around) :
    (∀ s, clauses.initializer = some s → s.Placed table kept (∅ :: around))
      ∧ clauses.rounds.Placed table kept (clauses.scopes around) := by
  rw [statement_eq] at h
  unfold scopes
  generalize clauses.initializer = clause at h
  cases clause with
  | none => exact ⟨nofun, h⟩
  | some initializer =>
    rw [Stmt.Placed, PlacedStatements, PlacedStatements] at h
    refine ⟨fun s hs => ?_, h.2.1⟩
    cases hs
    exact h.1

theorem placed_condition (h : clauses.rounds.Placed table kept inner) :
    (∀ e, clauses.condition = some e → e.Placed table inner)
      ∧ clauses.round.Placed table kept inner := by
  rw [rounds, Stmt.Placed] at h
  refine ⟨fun e he => ?_, h.2.1⟩
  rw [he] at h
  exact h.1

end Scopes

end ForClauses

namespace Run

/-! ### The loop -/

/-- The second run behind the first, unless that returns. -/
def andThen (first second : Run Flow) : Run Flow := do
  match ← first with
  | .returned value => return .returned value
  | .normal => second

/-- The value of the condition.  A condition that is missing is true. -/
def forCondition (steps : Nat) : Option Expr → Run Value
  | some condition => evaluate steps condition
  | none => return .bool true

/-- The increment, if there is one. -/
def forIncrement (steps : Nat) : Option Expr → Run Flow
  | some increment => do
    let _ ← evaluate steps increment
    return .normal
  | none => return .normal

/-- Round after round, as long as the condition holds.  The increment runs behind the body, and a
    body that returns ends the loop. -/
def forRounds : (steps : Nat) → ForClauses → Run Flow
  | 0, _ => exhausted
  | steps + 1, clauses => do
    if (← forCondition steps clauses.condition).isTruthy then
      andThen (andThen (execute steps clauses.body) (forIncrement steps clauses.increment))
        (forRounds steps clauses)
    else
      return .normal

/-- The whole loop. -/
def forStatement (steps : Nat) (clauses : ForClauses) : Run Flow :=
  match clauses.initializer with
  | some initializer => do
    let frame ← child (← currentFrame)
    within frame (andThen (execute steps initializer) (forRounds steps clauses))
  | none => forRounds steps clauses

theorem andThen_normal (x : Run Flow) : andThen x (pure .normal) = x := by
  funext m
  unfold andThen
  rcases hrun : x m with ⟨flow, after⟩ | ⟨halt, after⟩
  · rw [bind_of_ok hrun]
    cases flow <;> rfl
  · rw [bind_of_error hrun]

/-! ### The code of the parser

A block of two statements takes three steps by itself. -/

theorem execute_while (n : Nat) (condition : Expr) (body : Stmt) :
    execute (n + 1) (.whileLoop condition body) = do
      if (← evaluate n condition).isTruthy then
        andThen (execute n body) (execute n (.whileLoop condition body))
      else
        return .normal := by
  rw [execute]
  rfl

theorem executeAll_cons (n : Nat) (s : Stmt) (rest : List Stmt) :
    executeAll (n + 1) (s :: rest) = andThen (execute n s) (executeAll n rest) := by
  rw [executeAll]
  rfl

theorem executeAll_singleton (n : Nat) (s : Stmt) : executeAll (n + 1) [s] = execute n s := by
  rw [executeAll_cons]
  cases n with
  | zero =>
    rw [execute]
    rfl
  | succ n =>
    rw [executeAll]
    exact andThen_normal _

theorem execute_pair (n : Nat) (s t : Stmt) :
    execute (n + 3) (.block [s, t]) =
      blockFrame >>= fun frame => within frame (andThen (execute (n + 1) s) (execute n t)) := by
  rw [execute, blockFrame_bind, executeAll_cons]
  simp only [executeAll_singleton]

/-- With fewer steps the block does not end. -/
theorem execute_pair_of_lt {n : Nat} (hn : n < 3) (s t : Stmt) (m : Machine) :
    ∃ after, execute n (.block [s, t]) m = .error .outOfSteps after := by
  have hcases : n = 0 ∨ n = 1 ∨ n = 2 := by omega
  rcases hcases with rfl | rfl | rfl <;> exact ⟨_, rfl⟩

end Run

end Treewalk
