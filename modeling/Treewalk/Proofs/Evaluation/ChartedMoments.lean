import Treewalk.Proofs.Evaluation.ChartedRuns

/-!
# Parts of a run are at their places

**Every part of a run begins at a place of the source, in a frame that stands for the scopes of this
place.**  So what the source says of a place holds whenever the code there runs, in whatever call and
however deep inside blocks, and also when the function around it was declared long before.  Step by
step, a part begins at its own place, on the chart that the parts before it have left.
-/

namespace Treewalk

/-- The code of a task is situated where the machine is, and its values are known. -/
def Task.Charted (c : Scene) (chart : Chart) (m : Machine) : Task → Prop
  | .program statements =>
    m.At c chart none [] [] ∧ SituatedStatements c.toSetting [] [] statements
  | .execute s =>
    ∃ scopes shapes, m.At c chart none scopes shapes ∧ s.Situated c.toSetting scopes shapes
  | .executeAll body => ∃ scopes shapes, m.At c chart none scopes shapes
    ∧ SituatedStatements c.toSetting scopes shapes body
  | .evaluateOptional value => ∃ initialized scopes shapes, m.At c chart initialized scopes shapes
    ∧ SituatedOptional c.toSetting scopes shapes initialized value
  | .evaluate e => ∃ initialized scopes shapes, m.At c chart initialized scopes shapes
    ∧ e.Situated c.toSetting scopes shapes initialized
  | .evaluateAll args => ∃ initialized scopes shapes, m.At c chart initialized scopes shapes
    ∧ SituatedArguments c.toSetting scopes shapes initialized args
  | .call callee _ args =>
    callee.Charted c chart m.store ∧ ∀ value ∈ args, value.Charted c chart m.store
  | .invoke f args => f.Charted c chart m.store ∧ (∀ value ∈ args, value.Charted c chart m.store)
    ∧ args.length = f.arity
  | .instantiate k args => k.Charted c chart m.store
    ∧ (∀ value ∈ args, value.Charted c chart m.store) ∧ args.length = k.arity
  | .bind _ _ => True

/-- A task that is situated begins in a machine on a chart. -/
structure Moment.ChartedOn (c : Scene) (chart : Chart) (moment : Moment) : Prop where
  task : moment.task.Charted c chart moment.machine
  machine : moment.machine.Charted c chart

/-! ### The place behind a part -/

section Places

open Run

variable {c : Scene} {chart : Chart} {initialized : Option String} {scopes : List Scope}
variable {shapes : List Shape} {m after : Machine} {n : Nat}

/-- Behind an expression the machine is at the same place. -/
theorem Machine.At.evaluate (hm : m.At c chart initialized scopes shapes)
    (hclosed : Moment.Closed c.happened) {e : Expr} {value : Value}
    (he : e.Situated c.toSetting scopes shapes initialized) (hh : c.happened ⟨.evaluate e, n, m⟩)
    (h : Run.evaluate n e m = .ok value after) :
    ∃ later, after.At c later initialized scopes shapes ∧ value.Charted c later after.store := by
  obtain ⟨later, hchart, hafter, hvalue⟩ := (charts_evaluate hclosed n e hm he hh).of_ok h
  have hkeeps := sound_evaluate n e hm.charted.sound hm.stands.fits he.placed
  exact ⟨later, hm.after hchart hafter (hkeeps.of_ok h).2.1, hvalue⟩

theorem Machine.At.evaluateAll (hm : m.At c chart initialized scopes shapes)
    (hclosed : Moment.Closed c.happened) {args : List Expr} {values : List Value}
    (hargs : SituatedArguments c.toSetting scopes shapes initialized args)
    (hh : c.happened ⟨.evaluateAll args, n, m⟩) (h : Run.evaluateAll n args m = .ok values after) :
    ∃ later, chart <+: later ∧ m.store.Grows after.store ∧ after.Charted c later
      ∧ ∀ value ∈ values, value.Charted c later after.store := by
  obtain ⟨later, hchart, hafter, hvalues⟩ := (charts_evaluateAll hclosed n args hm hargs hh).of_ok h
  have hkeeps := sound_evaluateAll n args hm.charted.sound hm.stands.fits hargs.placed
  exact ⟨later, hchart, (hkeeps.of_ok h).2.1.1, hafter, hvalues⟩

/-- Behind a statement the machine is in the same frame. -/
theorem Machine.At.execute (hm : m.At c chart none scopes shapes)
    (hclosed : Moment.Closed c.happened) {s : Stmt} {flow : Flow}
    (hs : s.Situated c.toSetting scopes shapes) (hh : c.happened ⟨.execute s, n, m⟩)
    (h : Run.execute n s m = .ok flow after) :
    ∃ later, after.At c later none scopes shapes
      ∧ (flow = .normal → after.At c later none (s.scopesAfter scopes) shapes) := by
  obtain ⟨later, hchart, hafter, -⟩ := (charts_execute hclosed n s hm hs hh).of_ok h
  have hkeeps := sound_execute n s hm.charted.sound hm.stands.fits hs.placed
  obtain ⟨-, hlater, -, -, hfits⟩ := hkeeps.of_ok h
  exact ⟨later, hm.after hchart hafter hlater,
    fun hflow => at_scopesAfter hm hs hchart hafter hlater (hfits hflow)⟩

end Places

/-! ### What a moment at its place starts -/

namespace Moment

open Run

variable {c : Scene} {chart : Chart} {a b : Moment}

section Parts

variable {e first second : Expr} {s t : Stmt} {k l n : Nat} {m after : Machine}

/-- A part of an expression that is evaluated first is where the expression is. -/
theorem ChartedOn.part (ha : ChartedOn c chart ⟨.evaluate e, k, m⟩)
    (hfirst : ∀ {initialized scopes shapes}, e.Situated c.toSetting scopes shapes initialized →
      first.Situated c.toSetting scopes shapes initialized) :
    ∃ later, ChartedOn c later ⟨.evaluate first, n, m⟩ := by
  obtain ⟨⟨initialized, scopes, shapes, hm, hs⟩, hcharted⟩ := ha
  exact ⟨chart, ⟨initialized, scopes, shapes, hm, hfirst hs⟩, hcharted⟩

/-- So is a part that is evaluated behind another one. -/
theorem ChartedOn.partBehind (ha : ChartedOn c chart ⟨.evaluate e, k, m⟩)
    (hclosed : Closed c.happened) {value : Value}
    (hparts : ∀ {initialized scopes shapes}, e.Situated c.toSetting scopes shapes initialized →
      first.Situated c.toSetting scopes shapes initialized
        ∧ second.Situated c.toSetting scopes shapes initialized)
    (hh : c.happened ⟨.evaluate first, l, m⟩) (hfirst : evaluate l first m = .ok value after) :
    ∃ later, ChartedOn c later ⟨.evaluate second, n, after⟩ := by
  obtain ⟨⟨initialized, scopes, shapes, hm, hs⟩, -⟩ := ha
  obtain ⟨hbefore, hsecond⟩ := hparts hs
  obtain ⟨later, hafter, -⟩ := hm.evaluate hclosed hbefore hh hfirst
  exact ⟨later, ⟨initialized, scopes, shapes, hafter, hsecond⟩, hafter.charted⟩

/-- An expression that a statement evaluates first is where the statement is. -/
theorem ChartedOn.condition (ha : ChartedOn c chart ⟨.execute s, k, m⟩)
    (hcondition : ∀ {scopes shapes}, s.Situated c.toSetting scopes shapes →
      e.Situated c.toSetting scopes shapes none) :
    ∃ later, ChartedOn c later ⟨.evaluate e, n, m⟩ := by
  obtain ⟨⟨scopes, shapes, hm, hs⟩, hcharted⟩ := ha
  exact ⟨chart, ⟨none, scopes, shapes, hm, hcondition hs⟩, hcharted⟩

/-- So is a statement that depends on it. -/
theorem ChartedOn.branch (ha : ChartedOn c chart ⟨.execute s, k, m⟩) (hclosed : Closed c.happened)
    {value : Value}
    (hparts : ∀ {scopes shapes}, s.Situated c.toSetting scopes shapes →
      e.Situated c.toSetting scopes shapes none ∧ t.Situated c.toSetting scopes shapes)
    (hh : c.happened ⟨.evaluate e, l, m⟩) (he : evaluate l e m = .ok value after) :
    ∃ later, ChartedOn c later ⟨.execute t, n, after⟩ := by
  obtain ⟨⟨scopes, shapes, hm, hs⟩, -⟩ := ha
  obtain ⟨hcondition, hbranch⟩ := hparts hs
  obtain ⟨later, hafter, -⟩ := hm.evaluate hclosed hcondition hh he
  exact ⟨later, ⟨scopes, shapes, hafter, hbranch⟩, hafter.charted⟩

end Parts

/-- What a moment starts is at its place. -/
theorem ChartedOn.starts (ha : a.ChartedOn c chart) (hclosed : Closed c.happened)
    (hh : c.happened a) (hstarts : a.Starts b) : ∃ later, b.ChartedOn c later := by
  have htask := ha.task
  have hcharted := ha.machine
  cases hstarts
  -- Programs
  case first s rest n m =>
    obtain ⟨hm, hs⟩ := htask
    exact ⟨chart, ⟨[], [], hm, hs.cons.1⟩, hcharted⟩
  case next s rest n m after flow hrun =>
    obtain ⟨hm, hs⟩ := htask
    obtain ⟨hfirst, hrest⟩ := hs.cons
    rw [scopesAfter_nil] at hrest
    obtain ⟨later, hafter, -⟩ := hm.execute hclosed hfirst (hclosed hh .first) hrun
    exact ⟨later, ⟨hafter, hrest⟩, hafter.charted⟩
  -- Statements
  case expression => exact ha.condition fun hs => hs.expression
  case print => exact ha.condition fun hs => hs.print
  case var name value n m =>
    obtain ⟨scopes, shapes, hm, hs⟩ := htask
    exact ⟨chart, ⟨_, _, shapes, hm.initializer (hs.owned name.text rfl), hs.var⟩, hcharted⟩
  case block body n m after frame hframe =>
    obtain ⟨scopes, shapes, hm, hs⟩ := htask
    obtain ⟨hbody, hshaped⟩ := hs.block hm.stands.shaped
    obtain ⟨later, -, -, hplace⟩ := (charts_blockFrame hm hshaped).of_ok hframe
    exact ⟨later, ⟨_, _, hplace, hbody⟩, hplace.charted⟩
  case ifCondition e thenBranch elseBranch n m =>
    cases elseBranch with
    | none => exact ha.condition fun hs => hs.ifThen.1
    | some elseBranch => exact ha.condition fun hs => hs.ifElse.1
  case thenBranch e thenBranch elseBranch n m after value he hvalue =>
    have hhappened := hclosed hh .ifCondition
    cases elseBranch with
    | none => exact ha.branch hclosed (fun hs => hs.ifThen) hhappened he
    | some elseBranch =>
      exact ha.branch hclosed (fun hs => ⟨hs.ifElse.1, hs.ifElse.2.1⟩) hhappened he
  case elseBranch e thenBranch elseBranch n m after value he hvalue =>
    exact ha.branch hclosed (fun hs => ⟨hs.ifElse.1, hs.ifElse.2.2⟩) (hclosed hh .ifCondition) he
  case condition => exact ha.condition fun hs => hs.whileLoop.1
  case round e body n m after value he hvalue =>
    exact ha.branch hclosed (fun hs => hs.whileLoop) (hclosed hh .condition) he
  case again e body n m middle after value he hvalue hround =>
    obtain ⟨scopes, shapes, hm, hs⟩ := htask
    obtain ⟨hcondition, hbody⟩ := hs.whileLoop
    obtain ⟨_, hmiddle, -⟩ := hm.evaluate hclosed hcondition (hclosed hh .condition) he
    obtain ⟨later, hafter, -⟩ :=
      hmiddle.execute hclosed hbody (hclosed hh (.round he hvalue)) hround
    exact ⟨later, ⟨scopes, shapes, hafter, hs⟩, hafter.charted⟩
  case returned =>
    obtain ⟨scopes, shapes, hm, hs⟩ := htask
    exact ⟨chart, ⟨none, scopes, shapes, hm, hs.return⟩, hcharted⟩
  case head =>
    obtain ⟨scopes, shapes, hm, hs⟩ := htask
    exact ⟨chart, ⟨scopes, shapes, hm, hs.cons.1⟩, hcharted⟩
  case tail s rest n m after hrun =>
    obtain ⟨scopes, shapes, hm, hs⟩ := htask
    obtain ⟨hfirst, hrest⟩ := hs.cons
    obtain ⟨later, -, hafter⟩ := hm.execute hclosed hfirst (hclosed hh .head) hrun
    exact ⟨later, ⟨_, shapes, hafter rfl, hrest⟩, (hafter rfl).charted⟩
  -- Expressions
  case optional e n m =>
    obtain ⟨initialized, scopes, shapes, hm, hs⟩ := htask
    exact ⟨chart, ⟨initialized, scopes, shapes, hm, hs e rfl⟩, hcharted⟩
  case grouping => exact ha.part fun hs => hs.grouping
  case unary => exact ha.part fun hs => hs.unary
  case binaryLeft => exact ha.part fun hs => hs.binary.1
  case binaryRight op line left right n m after value hleft =>
    exact ha.partBehind hclosed (fun hs => hs.binary) (hclosed hh .binaryLeft) hleft
  case logicalLeft => exact ha.part fun hs => hs.logical.1
  case logicalRight op line left right n m after value hleft hvalue =>
    exact ha.partBehind hclosed (fun hs => hs.logical) (hclosed hh .logicalLeft) hleft
  case assigned => exact ha.part fun hs => hs.assign.1
  case callee => exact ha.part fun hs => hs.call.1
  case arguments callee line args n m after value hcallee =>
    obtain ⟨initialized, scopes, shapes, hm, hs⟩ := htask
    obtain ⟨later, hafter, -⟩ := hm.evaluate hclosed hs.call.1 (hclosed hh .callee) hcallee
    exact ⟨later, ⟨initialized, scopes, shapes, hafter, hs.call.2⟩, hafter.charted⟩
  case call callee line args n m middle after value values hcallee hargs =>
    obtain ⟨initialized, scopes, shapes, hm, hs⟩ := htask
    obtain ⟨_, hmiddle, hvalue⟩ := hm.evaluate hclosed hs.call.1 (hclosed hh .callee) hcallee
    obtain ⟨later, hchart, hgrows, hafter, hvalues⟩ :=
      hmiddle.evaluateAll hclosed hs.call.2 (hclosed hh (.arguments hcallee)) hargs
    exact ⟨later, ⟨hvalue.mono hchart hgrows, hvalues⟩, hafter⟩
  case getObject => exact ha.part fun hs => hs.get
  case method object name n m after o f hobject hfield hf =>
    obtain ⟨initialized, scopes, shapes, hm, hs⟩ := htask
    obtain ⟨later, hafter, -⟩ := hm.evaluate hclosed hs.get (hclosed hh .getObject) hobject
    exact ⟨later, trivial, hafter.charted⟩
  case setObject => exact ha.part fun hs => hs.set.1
  case setValue object name e n m after o hobject =>
    exact ha.partBehind hclosed (fun hs => hs.set) (hclosed hh .setObject) hobject
  case superMethod => exact ⟨chart, trivial, hcharted⟩
  case argument =>
    obtain ⟨initialized, scopes, shapes, hm, hs⟩ := htask
    exact ⟨chart, ⟨initialized, scopes, shapes, hm, hs.cons.1⟩, hcharted⟩
  case otherArguments e rest n m after value he =>
    obtain ⟨initialized, scopes, shapes, hm, hs⟩ := htask
    obtain ⟨later, hafter, -⟩ := hm.evaluate hclosed hs.cons.1 (hclosed hh .argument) he
    exact ⟨later, ⟨initialized, scopes, shapes, hafter, hs.cons.2⟩, hafter.charted⟩
  -- Calls
  case function harity => exact ⟨chart, ⟨htask.1, htask.2, harity⟩, hcharted⟩
  case construction harity => exact ⟨chart, ⟨htask.1, htask.2, harity⟩, hcharted⟩
  case body f args n m after frame hframe =>
    obtain ⟨⟨scopes, shapes, hstands, hdefined, hsituated, -⟩, hargs, hlength⟩ := htask
    obtain ⟨later, -, -, hplace⟩ :=
      (charts_callFrame hcharted hargs hlength hstands hdefined hsituated).of_ok hframe
    exact ⟨later, ⟨_, _, hplace, (hsituated.body hstands.shaped).1⟩, hplace.charted⟩
  case initializer k args n m after o method ho hmethod =>
    obtain ⟨later, -, hafter, -⟩ := (charts_newInstance hcharted htask.1).of_ok ho
    exact ⟨later, trivial, hafter⟩
  case initialization k args n m middle after o method f ho hmethod hf =>
    obtain ⟨hk, hargs, hlength⟩ := htask
    obtain ⟨_, hchart, hmiddle, hclass⟩ := (charts_newInstance hcharted hk).of_ok ho
    obtain ⟨-, hgrows, rfl⟩ := (sound_newInstance hcharted.sound k).of_ok ho
    obtain ⟨later, hlast, hafter, hbound⟩ :=
      (charts_bindMethod hmiddle (hclass.findMethod? hmethod) hclass).of_ok hf
    obtain ⟨-, hgrows', -, hdeclaration⟩ :=
      (sound_bindMethod hmiddle.sound (hclass.sound.findMethod? hmethod) hclass.sound).of_ok hf
    refine ⟨later, ⟨hbound, fun value hvalue => ?_, ?_⟩, hafter⟩
    · exact (hargs value hvalue).mono (hchart.trans hlast) (hgrows.1.trans hgrows'.1)
    · rw [hlength, ClassValue.arity, hmethod, Closure.arity, hdeclaration]
      rfl

/-- All that a moment reaches is at its place. -/
theorem ChartedOn.reaches (ha : a.ChartedOn c chart) (hclosed : Closed c.happened)
    (hh : c.happened a) (hreaches : a.Reaches b) : ∃ later, b.ChartedOn c later := by
  suffices h : (∃ later, b.ChartedOn c later) ∧ c.happened b from h.1
  induction hreaches with
  | refl => exact ⟨⟨chart, ha⟩, hh⟩
  | tail _ hstarts ih =>
    obtain ⟨⟨_, hmiddle⟩, hhappened⟩ := ih
    exact ⟨hmiddle.starts hclosed hhappened hstarts, hclosed hhappened hstarts⟩

end Moment

end Treewalk
