import Treewalk.Proofs.Evaluation.Origins

/-!
# Parts of a sound run are sound

**Every part of a run begins in frames that fit the scopes in which its code is placed.**  So what is
proved of placed code in a sound machine holds of all code that ever runs, in the machine it runs in.
Step by step, a part begins where the parts before it have left the machine.
-/

namespace Treewalk

/-- The code of a task is placed in scopes that the frames fit, and its values are sound. -/
def Task.Sound (table : HopTable) (kept : Nat → Prop) (m : Machine) : Task → Prop
  | .program statements =>
    m.current = Store.globals ∧ PlacedStatements table kept [] statements
  | .execute s => ∃ scopes, m.store.Fits m.current scopes ∧ s.Placed table kept scopes
  | .executeAll body =>
    ∃ scopes, m.store.Fits m.current scopes ∧ PlacedStatements table kept scopes body
  | .evaluateOptional value =>
    ∃ scopes, m.store.Fits m.current scopes ∧ ∀ e, value = some e → e.Placed table scopes
  | .evaluate e => ∃ scopes, m.store.Fits m.current scopes ∧ e.Placed table scopes
  | .evaluateAll args =>
    ∃ scopes, m.store.Fits m.current scopes ∧ PlacedArguments table scopes args
  | .call callee _ args =>
    callee.Sound table kept m.store ∧ ∀ value ∈ args, value.Sound table kept m.store
  | .invoke f args =>
    f.Sound table kept m.store ∧ (∀ value ∈ args, value.Sound table kept m.store)
      ∧ args.length = f.arity
  | .instantiate c args =>
    c.Sound table kept m.store ∧ (∀ value ∈ args, value.Sound table kept m.store)
      ∧ args.length = c.arity
  | .bind _ _ => True

/-- A sound task begins in a sound machine. -/
structure Moment.Sound (table : HopTable) (kept : Nat → Prop) (moment : Moment) : Prop where
  task : moment.task.Sound table kept moment.machine
  machine : moment.machine.Sound table kept

namespace Moment

open Run

variable {table : HopTable} {kept : Nat → Prop}

/-- What a sound moment starts is sound. -/
theorem Sound.starts {a b : Moment} (ha : a.Sound table kept) (hstarts : a.Starts b) :
    b.Sound table kept := by
  obtain ⟨htask, hm⟩ := ha
  cases hstarts
  -- Programs
  case first s rest n m =>
    obtain ⟨hcurrent, hplaced⟩ := htask
    rw [PlacedStatements] at hplaced
    exact ⟨⟨[], hcurrent, hplaced.1⟩, hm⟩
  case next s rest n m after flow hs =>
    obtain ⟨hcurrent, hplaced⟩ := htask
    rw [PlacedStatements, scopesAfter_nil] at hplaced
    have hfits : m.store.Fits m.current [] := hcurrent
    obtain ⟨hafter, hlater, -⟩ := (sound_execute n s hm hfits hplaced.1).of_ok hs
    exact ⟨⟨hlater.2.trans hcurrent, hplaced.2⟩, hafter⟩
  -- Statements
  case expression => exact ⟨htask, hm⟩
  case print => exact ⟨htask, hm⟩
  case var name value n m =>
    obtain ⟨scopes, hfits, hplaced⟩ := htask
    rw [Stmt.Placed] at hplaced
    exact ⟨⟨_, hfits.putDeclared name.text, hplaced⟩, hm⟩
  case block body n m after frame hframe =>
    obtain ⟨scopes, hfits, hplaced⟩ := htask
    rw [Stmt.Placed] at hplaced
    obtain ⟨hafter, -, hinner⟩ := (sound_blockFrame hm hfits).of_ok hframe
    exact ⟨⟨_, hinner, hplaced⟩, hafter.of_store_eq rfl rfl⟩
  case ifCondition e thenBranch elseBranch n m =>
    obtain ⟨scopes, hfits, hplaced⟩ := htask
    refine ⟨⟨scopes, hfits, ?_⟩, hm⟩
    cases elseBranch <;> rw [Stmt.Placed] at hplaced <;> exact hplaced.1
  case thenBranch e thenBranch elseBranch n m after value he hvalue =>
    obtain ⟨scopes, hfits, hplaced⟩ := htask
    cases elseBranch with
    | none =>
      rw [Stmt.Placed] at hplaced
      obtain ⟨hafter, hlater, -⟩ := (sound_evaluate n e hm hfits hplaced.1).of_ok he
      exact ⟨⟨scopes, hfits.after hlater, hplaced.2.1⟩, hafter⟩
    | some elseBranch =>
      rw [Stmt.Placed] at hplaced
      obtain ⟨hafter, hlater, -⟩ := (sound_evaluate n e hm hfits hplaced.1).of_ok he
      exact ⟨⟨scopes, hfits.after hlater, hplaced.2.1.1⟩, hafter⟩
  case elseBranch e thenBranch elseBranch n m after value he hvalue =>
    obtain ⟨scopes, hfits, hplaced⟩ := htask
    rw [Stmt.Placed] at hplaced
    obtain ⟨hafter, hlater, -⟩ := (sound_evaluate n e hm hfits hplaced.1).of_ok he
    exact ⟨⟨scopes, hfits.after hlater, hplaced.2.2.1⟩, hafter⟩
  case condition =>
    obtain ⟨scopes, hfits, hplaced⟩ := htask
    rw [Stmt.Placed] at hplaced
    exact ⟨⟨scopes, hfits, hplaced.1⟩, hm⟩
  case round e body n m after value he hvalue =>
    obtain ⟨scopes, hfits, hplaced⟩ := htask
    rw [Stmt.Placed] at hplaced
    obtain ⟨hafter, hlater, -⟩ := (sound_evaluate n e hm hfits hplaced.1).of_ok he
    exact ⟨⟨scopes, hfits.after hlater, hplaced.2.1⟩, hafter⟩
  case again e body n m middle after value he hvalue hbody =>
    obtain ⟨scopes, hfits, hplaced⟩ := htask
    have hloop := hplaced
    rw [Stmt.Placed] at hplaced
    obtain ⟨hmiddle, hlater, -⟩ := (sound_evaluate n e hm hfits hplaced.1).of_ok he
    have hround := sound_execute n body hmiddle (hfits.after hlater) hplaced.2.1
    obtain ⟨hafter, -, -, hfits', -⟩ := hround.of_ok hbody
    exact ⟨⟨scopes, hfits', hloop⟩, hafter⟩
  case returned =>
    obtain ⟨scopes, hfits, hplaced⟩ := htask
    rw [Stmt.Placed] at hplaced
    exact ⟨⟨scopes, hfits, hplaced⟩, hm⟩
  case head =>
    obtain ⟨scopes, hfits, hplaced⟩ := htask
    rw [PlacedStatements] at hplaced
    exact ⟨⟨scopes, hfits, hplaced.1⟩, hm⟩
  case tail s rest n m after hs =>
    obtain ⟨scopes, hfits, hplaced⟩ := htask
    rw [PlacedStatements] at hplaced
    obtain ⟨hafter, -, -, -, hfits'⟩ := (sound_execute n s hm hfits hplaced.1).of_ok hs
    exact ⟨⟨_, hfits' rfl, hplaced.2⟩, hafter⟩
  -- Expressions
  case optional e n m =>
    obtain ⟨scopes, hfits, hplaced⟩ := htask
    exact ⟨⟨scopes, hfits, hplaced e rfl⟩, hm⟩
  case grouping => exact ⟨htask, hm⟩
  case unary => exact ⟨htask, hm⟩
  case binaryLeft =>
    obtain ⟨scopes, hfits, hplaced⟩ := htask
    exact ⟨⟨scopes, hfits, hplaced.1⟩, hm⟩
  case binaryRight op line left right n m after value hleft =>
    obtain ⟨scopes, hfits, hplaced⟩ := htask
    obtain ⟨hafter, hlater, -⟩ := (sound_evaluate n left hm hfits hplaced.1).of_ok hleft
    exact ⟨⟨scopes, hfits.after hlater, hplaced.2⟩, hafter⟩
  case logicalLeft =>
    obtain ⟨scopes, hfits, hplaced⟩ := htask
    exact ⟨⟨scopes, hfits, hplaced.1⟩, hm⟩
  case logicalRight op line left right n m after value hleft hvalue =>
    obtain ⟨scopes, hfits, hplaced⟩ := htask
    obtain ⟨hafter, hlater, -⟩ := (sound_evaluate n left hm hfits hplaced.1).of_ok hleft
    exact ⟨⟨scopes, hfits.after hlater, hplaced.2⟩, hafter⟩
  case assigned =>
    obtain ⟨scopes, hfits, hplaced⟩ := htask
    exact ⟨⟨scopes, hfits, hplaced.1⟩, hm⟩
  case callee =>
    obtain ⟨scopes, hfits, hplaced⟩ := htask
    exact ⟨⟨scopes, hfits, hplaced.1⟩, hm⟩
  case arguments callee line args n m after value hcallee =>
    obtain ⟨scopes, hfits, hplaced⟩ := htask
    obtain ⟨hafter, hlater, -⟩ := (sound_evaluate n callee hm hfits hplaced.1).of_ok hcallee
    exact ⟨⟨scopes, hfits.after hlater, hplaced.2⟩, hafter⟩
  case call callee line args n m middle after value values hcallee hargs =>
    obtain ⟨scopes, hfits, hplaced⟩ := htask
    obtain ⟨hmiddle, hlater, hvalue⟩ := (sound_evaluate n callee hm hfits hplaced.1).of_ok hcallee
    have harguments := sound_evaluateAll n args hmiddle (hfits.after hlater) hplaced.2
    obtain ⟨hafter, hlater', hvalues⟩ := harguments.of_ok hargs
    exact ⟨⟨hvalue.mono hlater'.1, hvalues⟩, hafter⟩
  case getObject => exact ⟨htask, hm⟩
  case method object name n m after o f hobject hfield hf =>
    obtain ⟨scopes, hfits, hplaced⟩ := htask
    exact ⟨trivial, ((sound_evaluate n object hm hfits hplaced).of_ok hobject).1⟩
  case setObject =>
    obtain ⟨scopes, hfits, hplaced⟩ := htask
    exact ⟨⟨scopes, hfits, hplaced.1⟩, hm⟩
  case setValue object name e n m after o hobject =>
    obtain ⟨scopes, hfits, hplaced⟩ := htask
    obtain ⟨hafter, hlater, -⟩ := (sound_evaluate n object hm hfits hplaced.1).of_ok hobject
    exact ⟨⟨scopes, hfits.after hlater, hplaced.2⟩, hafter⟩
  case superMethod => exact ⟨trivial, hm⟩
  case argument =>
    obtain ⟨scopes, hfits, hplaced⟩ := htask
    exact ⟨⟨scopes, hfits, hplaced.1⟩, hm⟩
  case otherArguments e rest n m after value he =>
    obtain ⟨scopes, hfits, hplaced⟩ := htask
    obtain ⟨hafter, hlater, -⟩ := (sound_evaluate n e hm hfits hplaced.1).of_ok he
    exact ⟨⟨scopes, hfits.after hlater, hplaced.2⟩, hafter⟩
  -- Calls
  case function harity => exact ⟨⟨htask.1, htask.2, harity⟩, hm⟩
  case construction harity => exact ⟨⟨htask.1, htask.2, harity⟩, hm⟩
  case body f args n m after frame hframe =>
    obtain ⟨⟨scopes, hfits, hplaced, -⟩, hargs, hlength⟩ := htask
    obtain ⟨hafter, -, hinner⟩ := (sound_callFrame hm hfits hargs hlength).of_ok hframe
    exact ⟨⟨_, hinner, hplaced.body⟩, hafter.of_store_eq rfl rfl⟩
  case initializer c args n m after o method ho hmethod =>
    exact ⟨trivial, ((sound_newInstance hm c).of_ok ho).1⟩
  case initialization c args n m middle after o method f ho hmethod hf =>
    obtain ⟨hc, hargs, hlength⟩ := htask
    obtain ⟨hmiddle, hlater, rfl⟩ := (sound_newInstance hm c).of_ok ho
    have hc' := hc.mono hlater.1
    have hbound := sound_bindMethod hmiddle (hc'.findMethod? hmethod) hc'
    obtain ⟨hafter, hlater', hf', hdeclaration⟩ := hbound.of_ok hf
    have hargs' : ∀ value ∈ args, value.Sound table kept after.store := fun value hvalue =>
      ((hargs value hvalue).mono hlater.1).mono hlater'.1
    refine ⟨⟨hf', hargs', ?_⟩, hafter⟩
    rw [hlength, ClassValue.arity, hmethod, Closure.arity, hdeclaration]
    rfl

/-- All that a sound moment reaches is sound. -/
theorem Sound.reaches {a b : Moment} (ha : a.Sound table kept) (hreaches : a.Reaches b) :
    b.Sound table kept := by
  induction hreaches with
  | refl => exact ha
  | tail _ hstarts ih => exact ih.starts hstarts

end Moment

end Treewalk
