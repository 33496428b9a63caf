import Treewalk.Proofs.Evaluation.KnownRuns
import Treewalk.Proofs.Evaluation.Regime

/-!
# Runs under a regime

**Well-formed code keeps to every lawful regime, and so does everything that it starts.**  Code runs
in a frame in which the regime lets it run: blocks and bodies get a new frame inside such a one, and
everything comes back to the frame that it started in.  The induction is on the number of steps.
-/

namespace Treewalk

/-- The stock of the machine keeps to the regime, and code may run in its current frame. -/
structure Machine.Governed (r : Regime) (m : Machine) : Prop where
  holds : r.Holds m.stock
  scope : r.isScope m.stock m.current

theorem Machine.Governed.after {r : Regime} {m after : Machine} (hm : m.Governed r)
    (hafter : r.discipline.holds after) (hlater : r.discipline.later m after) :
    after.Governed r where
  holds := hafter
  scope := by
    rw [hlater.2]
    exact hlater.1.scope _ hm.scope

/-- A returned value is in order. -/
def Regime.isFlow (r : Regime) (s : Stock) : Flow → Prop
  | .normal => True
  | .returned value => r.isValue s value

namespace Run

variable {r : Regime}

theorem governed_resultOf {m : Machine} {f : Closure} {flow : Flow} (hm : r.Holds m.stock)
    (hflow : r.isFlow m.stock flow) :
    Keeps r.discipline (resultOf f flow) m fun value after => r.isValue after.stock value := by
  unfold resultOf
  split
  · have hback : r.Holds { m with current := f.frame }.stock := hm
    refine (governed_within (governed_readAt hback 0 "this")).imp ?_
    rintro value after - ⟨inner, ⟨hvalue, rfl⟩, hstock⟩
    rw [← hstock]
    exact hvalue
  · cases flow with
    | returned value => exact keeps_pure hm hflow
    | normal => exact keeps_pure hm trivial

mutual

theorem governed_execute (hr : r.Lawful) :
    ∀ (steps : Nat) (s : Stmt) {m : Machine}, m.Governed r → s.WellFormed →
    Keeps r.discipline (execute steps s) m fun flow after => r.isFlow after.stock flow
  | 0, _, _, hm, _ => governed_throw hm.holds _
  | steps + 1, .expression value, m, hm, hs => by
    rw [execute]
    rw [Stmt.WellFormed] at hs
    refine (governed_evaluate hr steps value hm hs).bind ?_
    exact fun _ after hafter _ _ => keeps_pure hafter trivial
  | steps + 1, .print value, m, hm, hs => by
    rw [execute]
    rw [Stmt.WellFormed] at hs
    refine (governed_evaluate hr steps value hm hs).bind fun _ middle hmiddle _ _ => ?_
    refine (governed_write hmiddle _).bind fun _ after hafter _ _ => ?_
    exact keeps_pure hafter trivial
  | steps + 1, .var name value, m, hm, hs => by
    rw [execute]
    rw [Stmt.WellFormed] at hs
    refine (governed_evaluateOptional hr steps value hm hs.2).bind ?_
    intro result middle hmiddle _ hresult
    refine (governed_currentFrame hmiddle).bind ?_
    rintro _ middle - - ⟨rfl, rfl⟩
    refine (governed_define hr hmiddle _ hs.1 hresult).bind fun _ after hafter _ _ => ?_
    exact keeps_pure hafter trivial
  | steps + 1, .block body, m, hm, hs => by
    rw [execute, blockFrame_bind]
    rw [Stmt.WellFormed] at hs
    refine (governed_blockFrame hr hm.holds hm.scope).bind ?_
    intro frame middle hmiddle _ hframe
    have hentered : Machine.Governed r { middle with current := frame } := ⟨hmiddle, hframe⟩
    refine (governed_within (governed_executeAll hr steps body hentered hs)).imp ?_
    rintro flow after - ⟨inner, hflow, hstock⟩
    rw [← hstock]
    exact hflow
  | steps + 1, .ifElse condition thenBranch none, m, hm, hs => by
    rw [execute]
    rw [Stmt.WellFormed] at hs
    refine (governed_evaluate hr steps condition hm hs.1).bind ?_
    intro value middle hmiddle hlater _
    split
    · exact governed_execute hr steps thenBranch (hm.after hmiddle hlater) hs.2.1
    · exact keeps_pure hmiddle trivial
  | steps + 1, .ifElse condition thenBranch (some elseBranch), m, hm, hs => by
    rw [execute]
    rw [Stmt.WellFormed] at hs
    refine (governed_evaluate hr steps condition hm hs.1).bind ?_
    intro value middle hmiddle hlater _
    split
    · exact governed_execute hr steps thenBranch (hm.after hmiddle hlater) hs.2.1.1
    · exact governed_execute hr steps elseBranch (hm.after hmiddle hlater) hs.2.2.1
  | steps + 1, .whileLoop condition body, m, hm, hs => by
    rw [execute]
    have hparts := hs
    rw [Stmt.WellFormed] at hparts
    refine (governed_evaluate hr steps condition hm hparts.1).bind ?_
    intro value middle hmiddle hlater _
    have hmiddle' := hm.after hmiddle hlater
    split
    · refine (governed_execute hr steps body hmiddle' hparts.2.1).bind ?_
      intro flow after hafter hlater' hflow
      cases flow with
      | returned value => exact keeps_pure hafter hflow
      | normal =>
        have hagain := hmiddle'.after hafter hlater'
        exact governed_execute hr steps (.whileLoop condition body) hagain hs
    · exact keeps_pure hmiddle trivial
  | steps + 1, .function declaration, m, hm, hs => by
    rw [execute]
    rw [Stmt.WellFormed] at hs
    refine (governed_declareFunction hr hm.holds hm.scope hs).bind fun _ after hafter _ _ => ?_
    exact keeps_pure hafter trivial
  | steps + 1, .return _ value, m, hm, hs => by
    rw [execute]
    rw [Stmt.WellFormed] at hs
    refine (governed_evaluateOptional hr steps value hm hs).bind ?_
    exact fun result after hafter _ hresult => keeps_pure hafter hresult
  | steps + 1, .class name superclass methods, m, hm, hs => by
    rw [execute]
    rw [Stmt.WellFormed] at hs
    have hname : IsUnreserved (ClassDecl.mk name superclass methods).name.text := hs.1
    refine (governed_declareClass hr hm.holds hm.scope hname hs.2.2).bind ?_
    exact fun _ after hafter _ _ => keeps_pure hafter trivial

theorem governed_executeAll (hr : r.Lawful) :
    ∀ (steps : Nat) (body : List Stmt) {m : Machine}, m.Governed r → WellFormedStatements body →
    Keeps r.discipline (executeAll steps body) m fun flow after => r.isFlow after.stock flow
  | 0, _, _, hm, _ => governed_throw hm.holds _
  | steps + 1, [], m, hm, _ => by
    rw [executeAll]
    exact keeps_pure hm.holds trivial
  | steps + 1, s :: rest, m, hm, hbody => by
    rw [executeAll]
    rw [WellFormedStatements] at hbody
    refine (governed_execute hr steps s hm hbody.1).bind ?_
    intro flow after hafter hlater hflow
    cases flow with
    | returned value => exact keeps_pure hafter hflow
    | normal => exact governed_executeAll hr steps rest (hm.after hafter hlater) hbody.2

theorem governed_evaluateOptional (hr : r.Lawful) :
    ∀ (steps : Nat) (value : Option Expr) {m : Machine}, m.Governed r →
    (∀ e, value = some e → e.WellFormed) →
    Keeps r.discipline (evaluateOptional steps value) m fun result after =>
      r.isValue after.stock result
  | 0, _, _, hm, _ => governed_throw hm.holds _
  | steps + 1, none, m, hm, _ => by
    rw [evaluateOptional]
    exact keeps_pure hm.holds trivial
  | steps + 1, some e, m, hm, hvalue => by
    rw [evaluateOptional]
    exact governed_evaluate hr steps e hm (hvalue e rfl)

theorem governed_evaluate (hr : r.Lawful) :
    ∀ (steps : Nat) (e : Expr) {m : Machine}, m.Governed r → e.WellFormed →
    Keeps r.discipline (evaluate steps e) m fun value after => r.isValue after.stock value
  | 0, _, _, hm, _ => governed_throw hm.holds _
  | steps + 1, .literal value, m, hm, _ => by
    rw [evaluate]
    exact keeps_pure hm.holds (Regime.isValue_literal value)
  | steps + 1, .grouping inner, m, hm, he => by
    rw [evaluate]
    exact governed_evaluate hr steps inner hm he
  | steps + 1, .unary op line operand, m, hm, he => by
    rw [evaluate]
    refine (governed_evaluate hr steps operand hm he).bind fun _ after hafter _ _ => ?_
    exact governed_orFault hafter _ fun result hresult =>
      Regime.isValue_of_plain (UnaryOp.plain_of_apply hresult)
  | steps + 1, .binary op line left right, m, hm, he => by
    rw [evaluate]
    refine (governed_evaluate hr steps left hm he.1).bind fun _ middle hmiddle hlater _ => ?_
    refine (governed_evaluate hr steps right (hm.after hmiddle hlater) he.2).bind ?_
    intro _ after hafter _ _
    exact governed_orFault hafter _ fun result hresult =>
      Regime.isValue_of_plain (BinaryOp.plain_of_apply hresult)
  | steps + 1, .logical op line left right, m, hm, he => by
    rw [evaluate]
    refine (governed_evaluate hr steps left hm he.1).bind fun value after hafter hlater hvalue => ?_
    split
    · exact keeps_pure hafter hvalue
    · exact governed_evaluate hr steps right (hm.after hafter hlater) he.2
  | steps + 1, .variable name id, m, hm, _ => by
    rw [evaluate]
    refine (governed_read hm.holds name id).imp ?_
    rintro value _ - ⟨hvalue, rfl⟩
    exact hvalue
  | steps + 1, .assign name id value, m, hm, he => by
    rw [evaluate]
    refine (governed_evaluate hr steps value hm he.1).bind fun result middle hmiddle _ hresult => ?_
    refine (governed_assign hr hmiddle he.2 id hresult).bind fun _ after hafter hlater _ => ?_
    exact keeps_pure hafter (hlater.1.isValue hresult)
  | steps + 1, .call callee line args, m, hm, he => by
    rw [evaluate]
    refine (governed_evaluate hr steps callee hm he.1).bind ?_
    intro value middle hmiddle hlater hvalue
    refine (governed_evaluateAll hr steps args (hm.after hmiddle hlater) he.2).bind ?_
    intro values after hafter hlater' hvalues
    exact governed_call hr steps line hafter (hlater'.1.isValue hvalue) hvalues
  | steps + 1, .get object name, m, hm, he => by
    rw [evaluate]
    refine (governed_evaluate hr steps object hm he).bind fun owner after hafter _ howner => ?_
    cases owner with
    | «instance» o => exact governed_property hr hafter howner name
    | _ => exact governed_fault hafter _ _
  | steps + 1, .set object name value, m, hm, he => by
    rw [evaluate]
    refine (governed_evaluate hr steps object hm he.1).bind ?_
    intro owner middle hmiddle hlater howner
    cases owner with
    | «instance» o =>
      refine (governed_evaluate hr steps value (hm.after hmiddle hlater) he.2).bind ?_
      intro result after hafter hlater' hresult
      refine (governed_setField hr hafter (hlater'.1.object o howner) name.text hresult).bind ?_
      exact fun _ last hlast hlater _ => keeps_pure hlast (hlater.1.isValue hresult)
    | _ => exact governed_fault hmiddle _ _
  | steps + 1, .this line id, m, hm, _ => by
    rw [evaluate]
    refine (governed_read hm.holds _ id).imp ?_
    rintro value _ - ⟨hvalue, rfl⟩
    exact hvalue
  | steps + 1, .super line id method, m, hm, _ => by
    rw [evaluate]
    exact governed_superMethod hr hm.holds line id method

theorem governed_evaluateAll (hr : r.Lawful) :
    ∀ (steps : Nat) (args : List Expr) {m : Machine}, m.Governed r → WellFormedArguments args →
    Keeps r.discipline (evaluateAll steps args) m fun values after =>
      ∀ value ∈ values, r.isValue after.stock value
  | 0, _, _, hm, _ => governed_throw hm.holds _
  | steps + 1, [], m, hm, _ => by
    rw [evaluateAll]
    exact keeps_pure hm.holds nofun
  | steps + 1, e :: rest, m, hm, hargs => by
    rw [evaluateAll]
    rw [WellFormedArguments] at hargs
    refine (governed_evaluate hr steps e hm hargs.1).bind ?_
    intro value middle hmiddle hlater hvalue
    refine (governed_evaluateAll hr steps rest (hm.after hmiddle hlater) hargs.2).bind ?_
    intro values after hafter hlater' hvalues
    exact keeps_pure hafter (List.forall_mem_cons.mpr ⟨hlater'.1.isValue hvalue, hvalues⟩)

/-- A call does not look at the frame of the caller. -/
theorem governed_call (hr : r.Lawful) :
    ∀ (steps : Nat) {callee : Value} (line : Nat) {args : List Value} {m : Machine},
    r.Holds m.stock → r.isValue m.stock callee → (∀ value ∈ args, r.isValue m.stock value) →
    Keeps r.discipline (call steps callee line args) m fun value after =>
      r.isValue after.stock value
  | 0, _, _, _, _, hm, _, _ => governed_throw hm _
  | steps + 1, callee, line, args, m, hm, hcallee, hargs => by
    unfold call
    rcases harity : callee.arity? with _ | arity
    · exact governed_fault hm _ _
    · by_cases hlength : args.length = arity
      · simp only [hlength, ne_eq, not_true_eq_false, if_false]
        cases callee with
        | native function => exact governed_clock hm
        | function identity f => exact governed_invoke hr steps hm hcallee hargs
        | «class» c => exact governed_instantiate hr steps hm hcallee hargs
        | _ => exact governed_fault hm _ _
      · simp only [hlength, ne_eq, not_false_eq_true, if_true]
        exact governed_fault hm _ _

theorem governed_invoke (hr : r.Lawful) :
    ∀ (steps : Nat) {f : Closure} {args : List Value} {m : Machine}, r.Holds m.stock →
    r.isCallable m.stock f → (∀ value ∈ args, r.isValue m.stock value) →
    Keeps r.discipline (invoke steps f args) m fun value after => r.isValue after.stock value
  | 0, _, _, _, hm, _, _ => governed_throw hm _
  | steps + 1, f, args, m, hm, hf, hargs => by
    rw [invoke_succ]
    refine (governed_callFrame hr hm hf hargs).bind fun frame middle hmiddle _ hframe => ?_
    have hentered : Machine.Governed r { middle with current := frame } := ⟨hmiddle, hframe⟩
    refine (governed_within (governed_executeAll hr steps f.declaration.body hentered
      (hr.callable_code hf).parts.2.2)).bind ?_
    rintro flow after hafter - ⟨inner, hflow, hstock⟩
    rw [hstock] at hflow
    exact governed_resultOf hafter hflow

theorem governed_instantiate (hr : r.Lawful) :
    ∀ (steps : Nat) {c : ClassValue} {args : List Value} {m : Machine}, r.Holds m.stock →
    r.isClass m.stock c → (∀ value ∈ args, r.isValue m.stock value) →
    Keeps r.discipline (instantiate steps c args) m fun value after => r.isValue after.stock value
  | 0, _, _, _, hm, _, _ => governed_throw hm _
  | steps + 1, c, args, m, hm, hc, hargs => by
    rw [instantiate]
    refine (governed_newInstance hr hm hc).bind fun o m₁ hm₁ hlater₁ ho => ?_
    rcases hinit : c.initializer? with _ | method
    · exact keeps_pure hm₁ ho
    · refine (governed_bindMethod hr hm₁ (hlater₁.1.ofClass c hc) hinit ho).bind ?_
      intro f m₂ hm₂ hlater₂ hf
      have hargs₂ := hlater₂.1.forall_isValue (hlater₁.1.forall_isValue hargs)
      refine (governed_invoke hr steps hm₂ hf hargs₂).bind fun _ m₃ hm₃ hlater₃ _ => ?_
      exact keeps_pure hm₃ (hlater₃.1.object o (hlater₂.1.object o ho))

end

theorem governed_executeTop (hr : r.Lawful) (steps : Nat) :
    ∀ (program : List Stmt) {m : Machine}, m.Governed r → WellFormedStatements program →
    Keeps r.discipline (executeTop steps program) m fun _ _ => True
  | [], m, hm, _ => by
    rw [executeTop]
    exact keeps_pure hm.holds trivial
  | s :: rest, m, hm, hprogram => by
    rw [executeTop]
    rw [WellFormedStatements] at hprogram
    refine (governed_execute hr steps s hm hprogram.1).bind fun _ after hafter hlater _ => ?_
    exact governed_executeTop hr steps rest (hm.after hafter hlater) hprogram.2

end Run

/-! ### What is started under a regime -/

/-- The code of a task is well-formed, and its values are in order. -/
def Task.Governed (r : Regime) (s : Stock) : Task → Prop
  | .program statements => WellFormedStatements statements
  | .execute statement => statement.WellFormed
  | .executeAll body => WellFormedStatements body
  | .evaluateOptional value => ∀ e, value = some e → e.WellFormed
  | .evaluate e => e.WellFormed
  | .evaluateAll args => WellFormedArguments args
  | .call callee _ args => r.isValue s callee ∧ ∀ value ∈ args, r.isValue s value
  | .invoke f args => r.isCallable s f ∧ ∀ value ∈ args, r.isValue s value
  | .instantiate c args => r.isClass s c ∧ ∀ value ∈ args, r.isValue s value
  | .bind method o =>
    (∃ c name, r.isClass s c ∧ c.findMethod? name = some method) ∧ r.isObject s o

/-- The task and the machine in which it begins keep to the regime. -/
structure Moment.Governed (r : Regime) (moment : Moment) : Prop where
  task : moment.task.Governed r moment.machine.stock
  machine : moment.machine.Governed r

theorem Stmt.WellFormed.conditional {condition : Expr} {thenBranch : Stmt}
    {elseBranch : Option Stmt} (h : (Stmt.ifElse condition thenBranch elseBranch).WellFormed) :
    condition.WellFormed ∧ thenBranch.WellFormed := by
  cases elseBranch with
  | none =>
    rw [Stmt.WellFormed] at h
    exact ⟨h.1, h.2.1⟩
  | some elseBranch =>
    rw [Stmt.WellFormed] at h
    exact ⟨h.1, h.2.1.1⟩

namespace Moment

open Run

variable {r : Regime} {a b : Moment}

theorem Governed.starts (hr : r.Lawful) (ha : a.Governed r) (hstarts : a.Starts b) :
    b.Governed r := by
  obtain ⟨htask, hm⟩ := ha
  have evaluated : ∀ {n e value after}, e.WellFormed →
      evaluate n e a.machine = .ok value after →
      after.Governed r ∧ r.Onward a.machine.stock after.stock ∧ r.isValue after.stock value := by
    intro n e value after he hrun
    have hkeeps := (governed_evaluate hr n e hm he).of_ok hrun
    exact ⟨hm.after hkeeps.1 hkeeps.2.1, hkeeps.2.1.1, hkeeps.2.2⟩
  cases hstarts
  -- Programs
  case first =>
    rw [Task.Governed, WellFormedStatements] at htask
    exact ⟨htask.1, hm⟩
  case next s rest n m after flow hs =>
    rw [Task.Governed, WellFormedStatements] at htask
    have hs := (governed_execute hr n s hm htask.1).of_ok hs
    exact ⟨htask.2, hm.after hs.1 hs.2.1⟩
  -- Statements
  case expression =>
    rw [Task.Governed, Stmt.WellFormed] at htask
    exact ⟨htask, hm⟩
  case print =>
    rw [Task.Governed, Stmt.WellFormed] at htask
    exact ⟨htask, hm⟩
  case var =>
    rw [Task.Governed, Stmt.WellFormed] at htask
    exact ⟨htask.2, hm⟩
  case block body n m after frame hframe =>
    rw [Task.Governed, Stmt.WellFormed] at htask
    have hentered := (governed_blockFrame hr hm.holds hm.scope).of_ok hframe
    exact ⟨htask, hentered.1, hentered.2.2⟩
  case ifCondition e thenBranch elseBranch n m => exact ⟨htask.conditional.1, hm⟩
  case thenBranch e thenBranch elseBranch n m after value he hvalue =>
    exact ⟨htask.conditional.2, (evaluated htask.conditional.1 he).1⟩
  case elseBranch e thenBranch elseBranch n m after value he hvalue =>
    rw [Task.Governed, Stmt.WellFormed] at htask
    exact ⟨htask.2.2.1, (evaluated htask.1 he).1⟩
  case condition =>
    rw [Task.Governed, Stmt.WellFormed] at htask
    exact ⟨htask.1, hm⟩
  case round e body n m after value he hvalue =>
    rw [Task.Governed, Stmt.WellFormed] at htask
    exact ⟨htask.2.1, (evaluated htask.1 he).1⟩
  case again e body n m middle after value he hvalue hbody =>
    have hparts : (Stmt.whileLoop e body).WellFormed := htask
    rw [Stmt.WellFormed] at hparts
    have hmiddle := (evaluated hparts.1 he).1
    have hafter := (governed_execute hr n body hmiddle hparts.2.1).of_ok hbody
    exact ⟨htask, hmiddle.after hafter.1 hafter.2.1⟩
  case returned =>
    rw [Task.Governed, Stmt.WellFormed] at htask
    exact ⟨htask, hm⟩
  case head =>
    rw [Task.Governed, WellFormedStatements] at htask
    exact ⟨htask.1, hm⟩
  case tail s rest n m after hs =>
    rw [Task.Governed, WellFormedStatements] at htask
    have hs := (governed_execute hr n s hm htask.1).of_ok hs
    exact ⟨htask.2, hm.after hs.1 hs.2.1⟩
  -- Expressions
  case optional e n m => exact ⟨htask e rfl, hm⟩
  case grouping => exact ⟨htask, hm⟩
  case unary => exact ⟨htask, hm⟩
  case binaryLeft => exact ⟨htask.1, hm⟩
  case binaryRight op line left right n m after value hleft =>
    exact ⟨htask.2, (evaluated htask.1 hleft).1⟩
  case logicalLeft => exact ⟨htask.1, hm⟩
  case logicalRight op line left right n m after value hleft hvalue =>
    exact ⟨htask.2, (evaluated htask.1 hleft).1⟩
  case assigned => exact ⟨htask.1, hm⟩
  case callee => exact ⟨htask.1, hm⟩
  case arguments callee line args n m after value hcallee =>
    exact ⟨htask.2, (evaluated htask.1 hcallee).1⟩
  case call callee line args n m middle after value values hcallee hargs =>
    obtain ⟨hmiddle, -, hvalue⟩ := evaluated htask.1 hcallee
    have hafter := (governed_evaluateAll hr n args hmiddle htask.2).of_ok hargs
    exact ⟨⟨hafter.2.1.1.isValue hvalue, hafter.2.2⟩, hmiddle.after hafter.1 hafter.2.1⟩
  case getObject => exact ⟨htask, hm⟩
  case method object name n m after o f hobject hfield hf =>
    have howner : object.WellFormed := htask
    obtain ⟨hafter, -, ho⟩ := evaluated howner hobject
    exact ⟨⟨⟨_, _, hr.object_class ho, hf⟩, ho⟩, hafter⟩
  case setObject => exact ⟨htask.1, hm⟩
  case setValue object name e n m after o hobject =>
    exact ⟨htask.2, (evaluated htask.1 hobject).1⟩
  case superMethod line id name n inner m c o f hhops hsuper hthis hf =>
    obtain ⟨_, -, hparent⟩ := Store.local?_of_getAt hsuper
    obtain ⟨_, -, hreceiver⟩ := Store.local?_of_getAt hthis
    exact ⟨⟨⟨c, _, hm.holds.bound _ _ _ hparent, hf⟩, hm.holds.bound _ _ _ hreceiver⟩, hm⟩
  case argument =>
    rw [Task.Governed, WellFormedArguments] at htask
    exact ⟨htask.1, hm⟩
  case otherArguments e rest n m after value he =>
    rw [Task.Governed, WellFormedArguments] at htask
    exact ⟨htask.2, (evaluated htask.1 he).1⟩
  -- Calls
  case function => exact ⟨htask, hm⟩
  case construction => exact ⟨htask, hm⟩
  case body f args n m after frame hframe =>
    have hentered := (governed_callFrame hr hm.holds htask.1 htask.2).of_ok hframe
    exact ⟨(hr.callable_code htask.1).parts.2.2, hentered.1, hentered.2.2⟩
  case initializer c args n m after o method ho hmethod =>
    have hafter := (governed_newInstance hr hm.holds htask.1).of_ok ho
    exact ⟨⟨⟨c, _, hafter.2.1.1.ofClass c htask.1, hmethod⟩, hafter.2.2⟩,
      hm.after hafter.1 hafter.2.1⟩
  case initialization c args n m middle after o method f ho hmethod hf =>
    have hmiddle := (governed_newInstance hr hm.holds htask.1).of_ok ho
    have hbound := (governed_bindMethod hr hmiddle.1 (hmiddle.2.1.1.ofClass c htask.1) hmethod
      hmiddle.2.2).of_ok hf
    exact ⟨⟨hbound.2.2, hbound.2.1.1.forall_isValue (hmiddle.2.1.1.forall_isValue htask.2)⟩,
      (hm.after hmiddle.1 hmiddle.2.1).after hbound.1 hbound.2.1⟩

/-- All that is reached under a regime keeps to it. -/
theorem Governed.reaches (hr : r.Lawful) (ha : a.Governed r) (hreaches : a.Reaches b) :
    b.Governed r := by
  induction hreaches with
  | refl => exact ha
  | tail _ hstarts ih => exact ih.starts hr hstarts

end Moment

end Treewalk
