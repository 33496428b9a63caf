import Treewalk.Proofs.Evaluation.Entering

/-!
# The statements and prints of a run

**A run is a row of statements that begin and of values that are printed, each in a machine of its
own.**  They are listed here in the order in which they come about.  A value is listed as soon as it
is known, before its text is written, so that a print that fails is listed as well.  Behind a part
that does not end well nothing is listed, since nothing is executed there.
-/

namespace Treewalk

/-- What a program does step by step, and the machine in which it does it. -/
inductive Act where
  /-- A statement begins. -/
  | begin (statement : Stmt) (m : Machine)
  /-- A value is about to be printed. -/
  | print (value : Value) (m : Machine)

namespace Run

/-- What is listed behind a run, if it ends well. -/
def followedBy {α β : Type} (x : Run α) (rest : α → Machine → List β) (m : Machine) : List β :=
  match x m with
  | .ok a after => rest a after
  | .error _ _ => []

section FollowedBy

variable {α β : Type} {x : Run α} {m after : Machine}

theorem followedBy_of_ok {a : α} (h : x m = .ok a after) (rest : α → Machine → List β) :
    followedBy x rest m = rest a after := by
  unfold followedBy
  rw [h]

theorem followedBy_of_error {halt : Halt} (h : x m = .error halt after)
    (rest : α → Machine → List β) : followedBy x rest m = [] := by
  unfold followedBy
  rw [h]

@[simp]
theorem followedBy_nothing : followedBy x (fun _ _ => ([] : List β)) m = [] := by
  unfold followedBy
  split <;> rfl

end FollowedBy

mutual

/-- What a statement does. -/
def executeActs : (steps : Nat) → Stmt → Machine → List Act
  | 0, _, _ => []
  | steps + 1, statement, m =>
    .begin statement m :: match statement with
    | .expression value => evaluateActs steps value m
    | .print value =>
      evaluateActs steps value m
        ++ followedBy (evaluate steps value) (fun value after => [.print value after]) m
    | .var _ initializer => optionalActs steps initializer m
    | .block body =>
      followedBy blockFrame (fun frame after =>
        executeAllActs steps body { after with current := frame }) m
    | .ifElse condition thenBranch elseBranch =>
      evaluateActs steps condition m ++ followedBy (evaluate steps condition) (fun value after =>
        if value.isTruthy then
          executeActs steps thenBranch after
        else
          match elseBranch with
          | some elseBranch => executeActs steps elseBranch after
          | none => []) m
    | .whileLoop condition body =>
      evaluateActs steps condition m ++ followedBy (evaluate steps condition) (fun value after =>
        if value.isTruthy then
          executeActs steps body after ++ followedBy (execute steps body) (fun flow after =>
            match flow with
            | .returned _ => []
            | .normal => executeActs steps (.whileLoop condition body) after) after
        else
          []) m
    | .function _ => []
    | .return _ value => optionalActs steps value m
    | .class _ _ _ => []

/-- What statements do one after another. -/
def executeAllActs : (steps : Nat) → List Stmt → Machine → List Act
  | 0, _, _ => []
  | _ + 1, [], _ => []
  | steps + 1, statement :: rest, m =>
    executeActs steps statement m ++ followedBy (execute steps statement) (fun flow after =>
      match flow with
      | .returned _ => []
      | .normal => executeAllActs steps rest after) m

/-- What is done in an expression that may be missing. -/
def optionalActs : (steps : Nat) → Option Expr → Machine → List Act
  | 0, _, _ => []
  | _ + 1, none, _ => []
  | steps + 1, some value, m => evaluateActs steps value m

/-- What is done in the calls of an expression. -/
def evaluateActs : (steps : Nat) → Expr → Machine → List Act
  | 0, _, _ => []
  | steps + 1, e, m =>
    match e with
    | .literal _ => []
    | .grouping inner => evaluateActs steps inner m
    | .unary _ _ operand => evaluateActs steps operand m
    | .binary _ _ left right =>
      evaluateActs steps left m
        ++ followedBy (evaluate steps left) (fun _ after => evaluateActs steps right after) m
    | .logical op _ left right =>
      evaluateActs steps left m ++ followedBy (evaluate steps left) (fun value after =>
        if op.decides value then [] else evaluateActs steps right after) m
    | .variable _ _ => []
    | .assign _ _ value => evaluateActs steps value m
    | .call callee line args =>
      evaluateActs steps callee m ++ followedBy (evaluate steps callee) (fun callee middle =>
        evaluateAllActs steps args middle ++ followedBy (evaluateAll steps args) (fun args after =>
          callActs steps callee line args after) middle) m
    | .get object _ => evaluateActs steps object m
    | .set object _ value =>
      evaluateActs steps object m ++ followedBy (evaluate steps object) (fun owner after =>
        match owner with
        | .instance _ => evaluateActs steps value after
        | _ => []) m
    | .this _ _ => []
    | .super _ _ _ => []

/-- What is done in the calls of arguments. -/
def evaluateAllActs : (steps : Nat) → List Expr → Machine → List Act
  | 0, _, _ => []
  | _ + 1, [], _ => []
  | steps + 1, e :: rest, m =>
    evaluateActs steps e m
      ++ followedBy (evaluate steps e) (fun _ after => evaluateAllActs steps rest after) m

/-- What is done in a call. -/
def callActs : (steps : Nat) → (callee : Value) → (line : Nat) → List Value → Machine → List Act
  | 0, _, _, _, _ => []
  | steps + 1, callee, _, args, m =>
    match callee.arity? with
    | none => []
    | some arity =>
      if args.length ≠ arity then
        []
      else
        match callee with
        | .function _ closure => invokeActs steps closure args m
        | .class value => instantiateActs steps value args m
        | _ => []

/-- What the body of a function does. -/
def invokeActs : (steps : Nat) → Closure → List Value → Machine → List Act
  | 0, _, _, _ => []
  | steps + 1, f, args, m =>
    followedBy (callFrame f args) (fun frame after =>
      executeAllActs steps f.declaration.body { after with current := frame }) m

/-- What the initializer of a new instance does. -/
def instantiateActs : (steps : Nat) → ClassValue → List Value → Machine → List Act
  | 0, _, _, _ => []
  | steps + 1, c, args, m =>
    match c.initializer? with
    | some initializer =>
      followedBy (newInstance c) (fun o middle =>
        followedBy (bindMethod initializer o) (fun f after => invokeActs steps f args after) middle) m
    | none => []

end

/-- What the statements of a program do. -/
def executeTopActs (steps : Nat) : List Stmt → Machine → List Act
  | [], _ => []
  | statement :: rest, m =>
    executeActs steps statement m
      ++ followedBy (execute steps statement) (fun _ after => executeTopActs steps rest after) m

end Run

end Treewalk
