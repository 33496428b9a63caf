import Treewalk.Proofs.Thinning.Lagging

/-!
# Rounds without a block

**The code of the parser runs round after round as the loop does, if the frames of the rounds are
left out.**  The proof goes along the code: a round is the body and the increment, the loop is a round
and the rest of the loop, and the statement is the initializer and the loop.  The induction is on the
number of steps that are left at each round.
-/

namespace Treewalk

open Tables

namespace Run

variable {first : Bool} {c : Tables} {w : Pairing} {m m' : Machine} {L R : List Scope}
variable {ι : Nat → Nat} {n k : Nat}

/-! ### Parts of the loop -/

theorem lags_execute {s : Stmt} (hsteps : Fewer first 0 n k) (hm : MachineLike c w m m')
    (haround : w.Around m.current L R)
    (hkept : s.isDeclaration = true → w.Kept m.current m'.current)
    (hleft : s.Placed c.left (fun _ => True) L)
    (hright : (s.move (.ofIds ι)).Placed c.right (fun _ => True) R) :
    Lags first c w (execute n s) (execute k (s.move (.ofIds ι))) m m' (FlowLike c) := by
  cases first with
  | true =>
    have haligned := aligned_execute n s hm haround hkept hleft hright
    exact haligned.lags_first (outlasted_execute _ hsteps)
  | false =>
    have haligned := aligned_execute k s hm haround hkept hleft hright
    exact haligned.lags_second (outlasted_execute _ hsteps)

theorem lags_evaluate {e : Expr} (hsteps : Fewer first 0 n k) (hm : MachineLike c w m m')
    (haround : w.Around m.current L R) (hleft : e.Placed c.left L)
    (hright : (e.move (.ofIds ι)).Placed c.right R) :
    Lags first c w (evaluate n e) (evaluate k (e.move (.ofIds ι))) m m' (ValueLike c) := by
  cases first with
  | true =>
    have haligned := aligned_evaluate n e hm haround hleft hright
    exact haligned.lags_first (outlasted_evaluate _ hsteps)
  | false =>
    have haligned := aligned_evaluate k e hm haround hleft hright
    exact haligned.lags_second (outlasted_evaluate _ hsteps)

/-- A condition that is missing is written as a constant, which takes a step. -/
theorem lags_forCondition {condition : Option Expr} (hsteps : Fewer first 1 n k)
    (hm : MachineLike c w m m') (haround : w.Around m.current L R)
    (hleft : ∀ e, condition = some e → e.Placed c.left L)
    (hright : ∀ e, condition = some e → (e.move (.ofIds ι)).Placed c.right R) :
    Lags first c w (evaluate n (condition.getD (.literal .true)))
      (forCondition k (condition.map (Expr.move (.ofIds ι)))) m m' (ValueLike c) := by
  cases condition with
  | some e =>
    have hsteps' : Fewer first 0 n k := hsteps.part (Nat.le_refl n) (by omega)
    exact lags_evaluate hsteps' hm haround (hleft e rfl) (hright e rfl)
  | none =>
    cases n with
    | zero => exact .first (hsteps.first_of_lt Nat.one_pos) ⟨m, rfl⟩
    | succ n =>
      rw [Option.getD_none, evaluate]
      exact .aligned (aligned_pure hm (.bool true))

theorem lags_expression {e : Expr} (hsteps : Fewer first 1 n k) (hm : MachineLike c w m m')
    (haround : w.Around m.current L R) (hleft : e.Placed c.left L)
    (hright : (e.move (.ofIds ι)).Placed c.right R) :
    Lags first c w (execute n (.expression e))
      (evaluate k (e.move (.ofIds ι)) >>= fun _ => pure Flow.normal) m m' (FlowLike c) := by
  cases n with
  | zero => exact .first (hsteps.first_of_lt Nat.one_pos) ⟨m, rfl⟩
  | succ n =>
    rw [execute]
    have hsteps' : Fewer first 0 n k := hsteps.part (Nat.le_succ n) (by omega)
    refine (lags_evaluate hsteps' hm haround hleft hright).bind fun later _ _ _ _ hon _ => ?_
    exact .aligned (aligned_pure hon.like .normal)

/-! ### Rounds -/

section Loops

variable {clauses : ForClauses}

/-- A round of the parser's code opens a frame if there is an increment.  The loop does not. -/
theorem lags_forRound (hplain : clauses.body.isDeclaration = false) (hsteps : Fewer first 4 n k)
    (hm : MachineLike c w m m') (haround : w.Around m.current L R)
    (hleft : clauses.round.Placed c.left (fun _ => True) L)
    (hright : (clauses.move (.ofIds ι)).PlacedRounds c.right R) :
    Lags first c w (execute n clauses.round)
      (andThen (execute k (clauses.body.move (.ofIds ι)))
        (forIncrement k (clauses.increment.map (Expr.move (.ofIds ι))))) m m' (FlowLike c) := by
  have hkept : ∀ {w : Pairing} {m m' : Machine},
      clauses.body.isDeclaration = true → w.Kept m.current m'.current := fun h => by
    rw [hplain] at h
    cases h
  obtain ⟨initializer, condition, increment, body⟩ := clauses
  cases increment with
  | none =>
    rw [Option.map_none, forIncrement, andThen_normal]
    exact lags_execute (hsteps.part (Nat.le_refl _) (by omega)) hm haround hkept hleft hright.body
  | some increment =>
    by_cases hn : n < 3
    · exact .first (hsteps.first_of_lt (Nat.lt_succ_of_lt hn)) (execute_pair_of_lt hn _ _ m)
    · obtain ⟨n, rfl⟩ := Nat.exists_eq_add_of_le' (Nat.le_of_not_lt hn)
      have hbody : Fewer first 0 (n + 1) k := hsteps.part (by omega) (by omega)
      have hrest : Fewer first 1 n k := hsteps.part (by omega) (by omega)
      have hincrement := hright.increment _ rfl
      rw [ForClauses.round, Stmt.Placed, PlacedStatements, PlacedStatements,
        Stmt.scopesAfter_of_plain hplain] at hleft
      rw [ForClauses.round, execute_pair]
      refine lags_spare hm fun later inner hinner hnew => ?_
      have haround' := hnew haround
      refine (lags_execute hbody hinner haround' hkept hleft.1 hright.body).andThen ?_
      intro last after after' hon
      exact lags_expression hrest hon.like (hon.around haround') hleft.2.1 hincrement

/-- Round after round, both run alike. -/
theorem lags_forRounds (hplain : clauses.body.isDeclaration = false) :
    ∀ (n k : Nat) {w : Pairing} {m m' : Machine}, Fewer first 4 n k → MachineLike c w m m' →
    w.Around m.current L R → clauses.rounds.Placed c.left (fun _ => True) L →
    (clauses.move (.ofIds ι)).PlacedRounds c.right R →
    Lags first c w (execute n clauses.rounds) (forRounds k (clauses.move (.ofIds ι))) m m'
      (FlowLike c)
  | 0, _, _, m, _, hsteps, _, _, _, _ => .first (hsteps.first_of_lt (by omega)) ⟨m, rfl⟩
  | n + 1, 0, _, _, m', hsteps, _, _, _, _ => by
    cases first with
    | true => exact absurd hsteps (Nat.not_succ_le_zero n)
    | false => exact .second rfl ⟨m', rfl⟩
  | n + 1, k + 1, w, m, m', hsteps, hm, haround, hleft, hright => by
    have hrest : Fewer first 4 n k := hsteps.pred
    have hone : Fewer first 1 n k := hrest.part (Nat.le_refl n) (by omega)
    obtain ⟨hcondition, hround⟩ := ForClauses.placed_condition hleft
    have hcondition' : ∀ e, clauses.condition = some e → (e.move (.ofIds ι)).Placed c.right R :=
      fun e he => hright.condition _ (congrArg (Option.map (Expr.move (.ofIds ι))) he)
    rw [ForClauses.rounds, execute_while, forRounds, ← ForClauses.rounds]
    refine (lags_forCondition hone hm haround hcondition hcondition').bind ?_
    intro later value value' after after' hon hvalue
    have haround' := hon.around haround
    rw [hvalue.isTruthy]
    split
    · refine (lags_forRound hplain hrest hon.like haround' hround hright).andThen ?_
      intro last _ _ hlast
      exact lags_forRounds hplain n k hrest hlast.like (hlast.around haround') hleft hright
    · exact .aligned (aligned_pure hon.like .normal)

/-- Both run the initializer in a frame, and then all rounds. -/
theorem lags_forStatement (hplain : clauses.body.isDeclaration = false) (hsteps : Fewer first 7 n k)
    (hm : MachineLike c w m m') (haround : w.Around m.current L R)
    (hleft : clauses.statement.Placed c.left (fun _ => True) L)
    (hright : (clauses.move (.ofIds ι)).Placed c.right R) :
    Lags first c w (execute n clauses.statement) (forStatement k (clauses.move (.ofIds ι))) m m'
      (FlowLike c) := by
  obtain ⟨hinitializer, hrounds⟩ := ForClauses.placed_rounds hleft
  have hinitializer' := hright.initializer
  have hrounds' := hright.rounds
  rw [ForClauses.statement_eq]
  obtain ⟨clause, condition, increment, body⟩ := clauses
  cases clause with
  | none =>
    have hrest : Fewer first 4 n k := hsteps.part (Nat.le_refl n) (by omega)
    exact lags_forRounds hplain n k hrest hm haround hrounds hrounds'
  | some initializer =>
    by_cases hn : n < 3
    · exact .first (hsteps.first_of_lt (by omega)) (execute_pair_of_lt hn _ _ m)
    · obtain ⟨n, rfl⟩ := Nat.exists_eq_add_of_le' (Nat.le_of_not_lt hn)
      have hfirst : Fewer first 0 (n + 1) k := hsteps.part (by omega) (by omega)
      have hrest : Fewer first 4 n k := hsteps.part (by omega) (by omega)
      rw [execute_pair]
      unfold forStatement
      dsimp only [ForClauses.move, Option.map_some]
      rw [blockFrame_bind]
      refine (Lags.aligned (aligned_blockFrame hm)).bind ?_
      rintro later frame frame' after after' hon ⟨hkept, hinner⟩
      have hentered := enter_aligned hon.like hkept.stands
      have haround' := hinner haround ∅
      have hrun := lags_execute hfirst hentered haround' (fun _ => hkept)
        (hinitializer initializer rfl) (hinitializer' _ rfl)
      refine Lags.within hon.like (hrun.andThen ?_)
      intro last _ _ hlast
      have hbehind := (hlast.around haround').scopesAfter (s := initializer)
        (fun _ => hlast.kept hkept) (.ofIds ι)
      exact lags_forRounds hplain n k hrest hlast.like hbehind hrounds hrounds'

end Loops

end Run

end Treewalk
