import Mathlib.Logic.Relation
import Treewalk.Proofs.Evaluation.Entering

/-!
# Parts of a run

**While a part of a program runs, it starts other parts, each in some machine.**  A moment is a part
that begins in a machine with a number of steps.  Which moments a moment starts can be read off the
evaluator, line by line: an operator starts its operands, a loop its condition, its body and its next
round, a call the body of the function, and so on.  A part starts only when those before it have
ended well, so the machine it begins in is the one that they leave.

What holds of a moment, and of every moment that it starts, holds of everything that happens in it,
also in runs that fail later or never end.
-/

namespace Treewalk

/-- A part of a run. -/
inductive Task where
  | program (statements : List Stmt)
  | execute (statement : Stmt)
  | executeAll (body : List Stmt)
  | evaluateOptional (value : Option Expr)
  | evaluate (e : Expr)
  | evaluateAll (args : List Expr)
  | call (callee : Value) (line : Nat) (args : List Value)
  | invoke (f : Closure) (args : List Value)
  | instantiate (c : ClassValue) (args : List Value)
  /-- A method is bound to an instance. -/
  | bind (method : Closure) (o : Instance)

/-- A part that begins in a machine. -/
structure Moment where
  task : Task
  steps : Nat
  machine : Machine

namespace Moment

open Run

/-- The second moment is one that the first starts. -/
inductive Starts : Moment → Moment → Prop
  -- Programs
  | first {s : Stmt} {rest : List Stmt} {n : Nat} {m : Machine} :
    Starts ⟨.program (s :: rest), n, m⟩ ⟨.execute s, n, m⟩
  | next {s : Stmt} {rest : List Stmt} {n : Nat} {m after : Machine} {flow : Flow}
    (hs : execute n s m = .ok flow after) :
    Starts ⟨.program (s :: rest), n, m⟩ ⟨.program rest, n, after⟩
  -- Statements
  | expression {e : Expr} {n : Nat} {m : Machine} :
    Starts ⟨.execute (.expression e), n + 1, m⟩ ⟨.evaluate e, n, m⟩
  | print {e : Expr} {n : Nat} {m : Machine} :
    Starts ⟨.execute (.print e), n + 1, m⟩ ⟨.evaluate e, n, m⟩
  | var {name : Name} {value : Option Expr} {n : Nat} {m : Machine} :
    Starts ⟨.execute (.var name value), n + 1, m⟩ ⟨.evaluateOptional value, n, m⟩
  | block {body : List Stmt} {n : Nat} {m after : Machine} {frame : FrameId}
    (hframe : blockFrame m = .ok frame after) :
    Starts ⟨.execute (.block body), n + 1, m⟩
      ⟨.executeAll body, n, { after with current := frame }⟩
  | ifCondition {e : Expr} {thenBranch : Stmt} {elseBranch : Option Stmt} {n : Nat} {m : Machine} :
    Starts ⟨.execute (.ifElse e thenBranch elseBranch), n + 1, m⟩ ⟨.evaluate e, n, m⟩
  | thenBranch {e : Expr} {thenBranch : Stmt} {elseBranch : Option Stmt} {n : Nat}
    {m after : Machine} {value : Value} (he : evaluate n e m = .ok value after)
    (hvalue : value.isTruthy = true) :
    Starts ⟨.execute (.ifElse e thenBranch elseBranch), n + 1, m⟩ ⟨.execute thenBranch, n, after⟩
  | elseBranch {e : Expr} {thenBranch elseBranch : Stmt} {n : Nat} {m after : Machine}
    {value : Value} (he : evaluate n e m = .ok value after) (hvalue : value.isTruthy = false) :
    Starts ⟨.execute (.ifElse e thenBranch (some elseBranch)), n + 1, m⟩
      ⟨.execute elseBranch, n, after⟩
  | condition {e : Expr} {body : Stmt} {n : Nat} {m : Machine} :
    Starts ⟨.execute (.whileLoop e body), n + 1, m⟩ ⟨.evaluate e, n, m⟩
  | round {e : Expr} {body : Stmt} {n : Nat} {m after : Machine} {value : Value}
    (he : evaluate n e m = .ok value after) (hvalue : value.isTruthy = true) :
    Starts ⟨.execute (.whileLoop e body), n + 1, m⟩ ⟨.execute body, n, after⟩
  | again {e : Expr} {body : Stmt} {n : Nat} {m middle after : Machine} {value : Value}
    (he : evaluate n e m = .ok value middle) (hvalue : value.isTruthy = true)
    (hbody : execute n body middle = .ok .normal after) :
    Starts ⟨.execute (.whileLoop e body), n + 1, m⟩ ⟨.execute (.whileLoop e body), n, after⟩
  | returned {line : Nat} {value : Option Expr} {n : Nat} {m : Machine} :
    Starts ⟨.execute (.return line value), n + 1, m⟩ ⟨.evaluateOptional value, n, m⟩
  | head {s : Stmt} {rest : List Stmt} {n : Nat} {m : Machine} :
    Starts ⟨.executeAll (s :: rest), n + 1, m⟩ ⟨.execute s, n, m⟩
  | tail {s : Stmt} {rest : List Stmt} {n : Nat} {m after : Machine}
    (hs : execute n s m = .ok .normal after) :
    Starts ⟨.executeAll (s :: rest), n + 1, m⟩ ⟨.executeAll rest, n, after⟩
  -- Expressions
  | optional {e : Expr} {n : Nat} {m : Machine} :
    Starts ⟨.evaluateOptional (some e), n + 1, m⟩ ⟨.evaluate e, n, m⟩
  | grouping {e : Expr} {n : Nat} {m : Machine} :
    Starts ⟨.evaluate (.grouping e), n + 1, m⟩ ⟨.evaluate e, n, m⟩
  | unary {op : UnaryOp} {line : Nat} {e : Expr} {n : Nat} {m : Machine} :
    Starts ⟨.evaluate (.unary op line e), n + 1, m⟩ ⟨.evaluate e, n, m⟩
  | binaryLeft {op : BinaryOp} {line : Nat} {left right : Expr} {n : Nat} {m : Machine} :
    Starts ⟨.evaluate (.binary op line left right), n + 1, m⟩ ⟨.evaluate left, n, m⟩
  | binaryRight {op : BinaryOp} {line : Nat} {left right : Expr} {n : Nat} {m after : Machine}
    {value : Value} (hleft : evaluate n left m = .ok value after) :
    Starts ⟨.evaluate (.binary op line left right), n + 1, m⟩ ⟨.evaluate right, n, after⟩
  | logicalLeft {op : LogicalOp} {line : Nat} {left right : Expr} {n : Nat} {m : Machine} :
    Starts ⟨.evaluate (.logical op line left right), n + 1, m⟩ ⟨.evaluate left, n, m⟩
  | logicalRight {op : LogicalOp} {line : Nat} {left right : Expr} {n : Nat} {m after : Machine}
    {value : Value} (hleft : evaluate n left m = .ok value after)
    (hvalue : op.decides value = false) :
    Starts ⟨.evaluate (.logical op line left right), n + 1, m⟩ ⟨.evaluate right, n, after⟩
  | assigned {name : Name} {id : Nat} {e : Expr} {n : Nat} {m : Machine} :
    Starts ⟨.evaluate (.assign name id e), n + 1, m⟩ ⟨.evaluate e, n, m⟩
  | callee {callee : Expr} {line : Nat} {args : List Expr} {n : Nat} {m : Machine} :
    Starts ⟨.evaluate (.call callee line args), n + 1, m⟩ ⟨.evaluate callee, n, m⟩
  | arguments {callee : Expr} {line : Nat} {args : List Expr} {n : Nat} {m after : Machine}
    {value : Value} (hcallee : evaluate n callee m = .ok value after) :
    Starts ⟨.evaluate (.call callee line args), n + 1, m⟩ ⟨.evaluateAll args, n, after⟩
  | call {callee : Expr} {line : Nat} {args : List Expr} {n : Nat} {m middle after : Machine}
    {value : Value} {values : List Value} (hcallee : evaluate n callee m = .ok value middle)
    (hargs : evaluateAll n args middle = .ok values after) :
    Starts ⟨.evaluate (.call callee line args), n + 1, m⟩ ⟨.call value line values, n, after⟩
  | getObject {object : Expr} {name : Name} {n : Nat} {m : Machine} :
    Starts ⟨.evaluate (.get object name), n + 1, m⟩ ⟨.evaluate object, n, m⟩
  | method {object : Expr} {name : Name} {n : Nat} {m after : Machine} {o : Instance}
    {f : Closure} (hobject : evaluate n object m = .ok (.instance o) after)
    (hfield : after.store.field? o name.text = none)
    (hf : o.ofClass.findMethod? name.text = some f) :
    Starts ⟨.evaluate (.get object name), n + 1, m⟩ ⟨.bind f o, n, after⟩
  | setObject {object : Expr} {name : Name} {e : Expr} {n : Nat} {m : Machine} :
    Starts ⟨.evaluate (.set object name e), n + 1, m⟩ ⟨.evaluate object, n, m⟩
  | setValue {object : Expr} {name : Name} {e : Expr} {n : Nat} {m after : Machine} {o : Instance}
    (hobject : evaluate n object m = .ok (.instance o) after) :
    Starts ⟨.evaluate (.set object name e), n + 1, m⟩ ⟨.evaluate e, n, after⟩
  | superMethod {line id : Nat} {name : Name} {n inner : Nat} {m : Machine} {c : ClassValue}
    {o : Instance} {f : Closure} (hhops : m.hops[id]? = some (inner + 1))
    (hsuper : m.store.getAt m.current (inner + 1) "super" = .ok (.class c))
    (hthis : m.store.getAt m.current inner "this" = .ok (.instance o))
    (hf : c.findMethod? name.text = some f) :
    Starts ⟨.evaluate (.super line id name), n + 1, m⟩ ⟨.bind f o, n, m⟩
  | argument {e : Expr} {rest : List Expr} {n : Nat} {m : Machine} :
    Starts ⟨.evaluateAll (e :: rest), n + 1, m⟩ ⟨.evaluate e, n, m⟩
  | otherArguments {e : Expr} {rest : List Expr} {n : Nat} {m after : Machine} {value : Value}
    (he : evaluate n e m = .ok value after) :
    Starts ⟨.evaluateAll (e :: rest), n + 1, m⟩ ⟨.evaluateAll rest, n, after⟩
  -- Calls
  | function {identity : Nat} {f : Closure} {line : Nat} {args : List Value} {n : Nat}
    {m : Machine} (harity : args.length = f.arity) :
    Starts ⟨.call (.function identity f) line args, n + 1, m⟩ ⟨.invoke f args, n, m⟩
  | construction {c : ClassValue} {line : Nat} {args : List Value} {n : Nat} {m : Machine}
    (harity : args.length = c.arity) :
    Starts ⟨.call (.class c) line args, n + 1, m⟩ ⟨.instantiate c args, n, m⟩
  | body {f : Closure} {args : List Value} {n : Nat} {m after : Machine} {frame : FrameId}
    (hframe : callFrame f args m = .ok frame after) :
    Starts ⟨.invoke f args, n + 1, m⟩
      ⟨.executeAll f.declaration.body, n, { after with current := frame }⟩
  | initializer {c : ClassValue} {args : List Value} {n : Nat} {m after : Machine} {o : Instance}
    {method : Closure} (ho : newInstance c m = .ok o after)
    (hmethod : c.initializer? = some method) :
    Starts ⟨.instantiate c args, n + 1, m⟩ ⟨.bind method o, n, after⟩
  | initialization {c : ClassValue} {args : List Value} {n : Nat} {m middle after : Machine}
    {o : Instance} {method f : Closure} (ho : newInstance c m = .ok o middle)
    (hmethod : c.initializer? = some method) (hf : bindMethod method o middle = .ok f after) :
    Starts ⟨.instantiate c args, n + 1, m⟩ ⟨.invoke f args, n, after⟩

/-- The second moment is the first, or comes about while that runs. -/
abbrev Reaches : Moment → Moment → Prop :=
  Relation.ReflTransGen Starts

/-- What is started by a moment that happened has happened as well. -/
def Closed (happened : Moment → Prop) : Prop :=
  ∀ ⦃a b : Moment⦄, happened a → a.Starts b → happened b

end Moment

end Treewalk
