import Treewalk.Machine
import Treewalk.Operation

/-!
# What programs do

**An expression has a value, and a statement ends normally or returns.**  A return is an
ordinary result that travels up to the nearest call; a failure stops the whole run.  The frame
in which names are declared is the same before and after everything, however it ends.

Every part of a program takes one of a number of steps, and its parts run with one less; so
does each further round of a loop.  A run that ends takes the same course with any larger
number of steps.
-/

namespace Treewalk

/-- How a statement ends. -/
inductive Flow where
  | normal
  | returned (value : Value)

namespace Run

/-- Stops because no step is left. -/
def exhausted {α : Type} : Run α := throw .outOfSteps

/-- Binds parameters to arguments in a frame, as `Function::call` does first. -/
def bindParams (frame : FrameId) : List Name → List Value → Run PUnit
  | param :: params, argument :: args => do
    define frame param.text argument
    bindParams frame params args
  | _, _ => return ⟨⟩

/-- The class that a class declaration derives from, if it names one. -/
def superclassOf : Option Reference → Run (Option ClassValue)
  | none => return none
  | some superclass => do
    match ← read superclass.name superclass.id with
    | .class value => return some value
    | _ => fault superclass.name .superclassNotClass

/-- The frame that the methods of a class are declared in: around it, `super` is bound if there
    is a superclass. -/
def methodFrame (frame : FrameId) : Option ClassValue → Run FrameId
  | none => return frame
  | some parent => do
    let inner ← child frame
    define inner "super" (.class parent)
    return inner

/-- Declares a class, as `execute` does.  Its name is bound before its methods are made, and given
    the class afterwards. -/
def declareClass (name : Name) (superclass : Option Reference) (methods : List FunctionDecl) :
    Run PUnit := do
  let parent ← superclassOf superclass
  let frame ← currentFrame
  define frame name.text .nil
  let inner ← methodFrame frame parent
  let value ← newClass name.text parent (methodTable inner methods)
  assignFrom frame name (.class value)

/-- Declares a function, whose name is visible in its own body. -/
def declareFunction (declaration : FunctionDecl) : Run PUnit := do
  let frame ← currentFrame
  define frame declaration.name.text (← functionValue ⟨declaration, frame, false⟩)

mutual

/-- Runs a statement (`execute`). -/
def execute : (steps : Nat) → Stmt → Run Flow
  | 0, _ => exhausted
  | steps + 1, statement =>
    match statement with
    | .expression value => do
      let _ ← evaluate steps value
      return .normal
    | .print value => do
      let value ← evaluate steps value
      write (value.text ++ "\n")
      return .normal
    | .var name initializer => do
      let value ← evaluateOptional steps initializer
      define (← currentFrame) name.text value
      return .normal
    | .block body => do
      let frame ← child (← currentFrame)
      within frame (executeAll steps body)
    | .ifElse condition thenBranch elseBranch => do
      if (← evaluate steps condition).isTruthy then
        execute steps thenBranch
      else
        match elseBranch with
        | some elseBranch => execute steps elseBranch
        | none => return .normal
    | .whileLoop condition body => do
      if (← evaluate steps condition).isTruthy then
        match ← execute steps body with
        | .returned value => return .returned value
        | .normal => execute steps (.whileLoop condition body)
      else
        return .normal
    | .function declaration => do
      declareFunction declaration
      return .normal
    | .return _ value => return .returned (← evaluateOptional steps value)
    | .class name superclass methods => do
      declareClass name superclass methods
      return .normal

/-- Runs statements one after another, up to the first that returns (`execute_all`). -/
def executeAll : (steps : Nat) → List Stmt → Run Flow
  | 0, _ => exhausted
  | _ + 1, [] => return .normal
  | steps + 1, statement :: rest => do
    match ← execute steps statement with
    | .returned value => return .returned value
    | .normal => executeAll steps rest

/-- The value of an expression that may be missing. -/
def evaluateOptional : (steps : Nat) → Option Expr → Run Value
  | 0, _ => exhausted
  | _ + 1, none => return .nil
  | steps + 1, some value => evaluate steps value

/-- The value of an expression (`evaluate`). -/
def evaluate : (steps : Nat) → Expr → Run Value
  | 0, _ => exhausted
  | steps + 1, e =>
    match e with
    | .literal value => return value.value
    | .grouping inner => evaluate steps inner
    | .unary op line operand => do
      let operand ← evaluate steps operand
      orFault ⟨op.symbol, line⟩ (op.apply operand)
    | .binary op line left right => do
      let left ← evaluate steps left
      let right ← evaluate steps right
      orFault ⟨op.symbol, line⟩ (op.apply left right)
    | .logical op _ left right => do
      let left ← evaluate steps left
      if op.decides left then return left else evaluate steps right
    | .variable name id => read name id
    | .assign name id value => do
      let value ← evaluate steps value
      assign name id value
      return value
    | .call callee line args => do
      let callee ← evaluate steps callee
      let args ← evaluateAll steps args
      call steps callee line args
    | .get object name => do
      match ← evaluate steps object with
      | .instance o => property o name
      | _ => fault name .noProperties
    | .set object name value => do
      match ← evaluate steps object with
      | .instance o =>
        let value ← evaluate steps value
        setField o name.text value
        return value
      | _ => fault name .noFields
    | .this line id => read ⟨"this", line⟩ id
    | .super line id method => superMethod line id method

/-- The values of expressions, from left to right. -/
def evaluateAll : (steps : Nat) → List Expr → Run (List Value)
  | 0, _ => exhausted
  | _ + 1, [] => return []
  | steps + 1, e :: rest => do
    let value ← evaluate steps e
    return value :: (← evaluateAll steps rest)

/-- Calls a value; `line` is that of the closing parenthesis, where a call that cannot be made is
    reported (`call_value`). -/
def call : (steps : Nat) → (callee : Value) → (line : Nat) → List Value → Run Value
  | 0, _, _, _ => exhausted
  | steps + 1, callee, line, args =>
    match callee.arity? with
    | none => fault ⟨")", line⟩ .notCallable
    | some arity =>
      if args.length ≠ arity then
        fault ⟨")", line⟩ (.wrongArity arity args.length callee.text)
      else
        match callee with
        | .native .clock => clock
        | .function _ closure => invoke steps closure args
        | .class value => instantiate steps value args
        | _ => fault ⟨")", line⟩ .notCallable

/-- Runs the body of a function in a new frame (`Function::call`).  An initializer always gives the
    instance that it was bound to. -/
def invoke : (steps : Nat) → Closure → List Value → Run Value
  | 0, _, _ => exhausted
  | steps + 1, f, args => do
    let frame ← child f.frame
    bindParams frame f.declaration.params args
    let flow ← within frame (executeAll steps f.declaration.body)
    if f.isInitializer then
      within f.frame (readAt 0 "this")
    else
      match flow with
      | .returned value => return value
      | .normal => return .nil

/-- Makes an instance and initializes it (`Class::instantiate`). -/
def instantiate : (steps : Nat) → ClassValue → List Value → Run Value
  | 0, _, _ => exhausted
  | steps + 1, c, args => do
    let o ← newInstance c
    match c.initializer? with
    | some initializer =>
      let _ ← invoke steps (← bindMethod initializer o) args
      return .instance o
    | none => return .instance o

end

/-- Runs the statements of a program, each with `steps` steps.  A return at the top level ends
    the statement that it stands in and nothing else. -/
def executeTop (steps : Nat) : List Stmt → Run PUnit
  | [] => return ⟨⟩
  | statement :: rest => do
    let _ ← execute steps statement
    executeTop steps rest

/-- Runs a program to its end, and flushes the sink (`interpret`). -/
def interpret (steps : Nat) (program : Program) : Run PUnit := do
  executeTop steps program
  flush

end Run

/-- A number of steps that no run that fits a computer ever uses up. -/
def ampleSteps : Nat := 1000000000000000

end Treewalk
