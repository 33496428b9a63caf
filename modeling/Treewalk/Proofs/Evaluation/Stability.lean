import Treewalk.Evaluation
import Treewalk.Proofs.Sequencing

/-!
# More steps

**A run that ends with some number of steps ends in the same way with every larger one.**  The number
of steps only decides how far a run is followed.  All parts of a program hand down what they have
left, so a larger number is larger for each of them, and a part that ends goes on to end as it did.
-/

namespace Treewalk

namespace Run

variable {α β : Type}

/-- The run has used up its steps. -/
def GaveUp (result : EStateM.Result Halt Machine α) : Prop :=
  ∃ after, result = .error .outOfSteps after

/-- From any machine the second run ends as the first does, unless the first gives up. -/
def OutlastedBy (x y : Run α) : Prop :=
  ∀ m, GaveUp (x m) ∨ y m = x m

theorem OutlastedBy.refl (x : Run α) : OutlastedBy x x := fun _ => Or.inr rfl

theorem exhausted_outlastedBy (y : Run α) : OutlastedBy exhausted y := fun m => Or.inl ⟨m, rfl⟩

theorem OutlastedBy.bind {x y : Run α} {f g : α → Run β} (hx : OutlastedBy x y)
    (hf : ∀ a, OutlastedBy (f a) (g a)) : OutlastedBy (x >>= f) (y >>= g) := by
  intro m
  rcases hx m with ⟨after, hgave⟩ | hsame
  · exact Or.inl ⟨after, bind_of_error hgave⟩
  · rcases hxm : x m with ⟨a, middle⟩ | ⟨halt, middle⟩
    · rw [hxm] at hsame
      rw [bind_of_ok hxm, bind_of_ok hsame]
      exact hf a middle
    · rw [hxm] at hsame
      rw [bind_of_error hxm, bind_of_error hsame]
      exact Or.inr rfl

theorem OutlastedBy.within {x y : Run α} (hx : OutlastedBy x y) (frame : FrameId) :
    OutlastedBy (within frame x) (within frame y) := by
  intro m
  unfold Run.within
  rcases hx { m with current := frame } with ⟨after, hgave⟩ | hsame
  · rw [hgave]
    exact Or.inl ⟨_, rfl⟩
  · rw [hsame]
    exact Or.inr rfl

theorem OutlastedBy.ite {x x' y y' : Run α} {condition : Prop} [Decidable condition]
    (hx : OutlastedBy x x') (hy : OutlastedBy y y') :
    OutlastedBy (if condition then x else y) (if condition then x' else y') := by
  by_cases h : condition
  · rw [if_pos h, if_pos h]
    exact hx
  · rw [if_neg h, if_neg h]
    exact hy

mutual

theorem outlasted_execute : ∀ {n k : Nat} (s : Stmt), n ≤ k →
    OutlastedBy (execute n s) (execute k s)
  | 0, _, _, _ => exhausted_outlastedBy _
  | n + 1, k + 1, .expression e, h => by
    rw [execute, execute]
    exact (outlasted_evaluate e (Nat.le_of_succ_le_succ h)).bind fun _ => .refl _
  | n + 1, k + 1, .print e, h => by
    rw [execute, execute]
    exact (outlasted_evaluate e (Nat.le_of_succ_le_succ h)).bind fun _ => .refl _
  | n + 1, k + 1, .var _ value, h => by
    rw [execute, execute]
    exact (outlasted_evaluateOptional value (Nat.le_of_succ_le_succ h)).bind fun _ => .refl _
  | n + 1, k + 1, .block body, h => by
    rw [execute, execute]
    have hbody := outlasted_executeAll body (Nat.le_of_succ_le_succ h)
    exact (OutlastedBy.refl _).bind fun _ => (OutlastedBy.refl _).bind fun frame =>
      hbody.within frame
  | n + 1, k + 1, .ifElse e thenBranch none, h => by
    rw [execute, execute]
    have hle := Nat.le_of_succ_le_succ h
    refine (outlasted_evaluate e hle).bind fun value => ?_
    exact (outlasted_execute thenBranch hle).ite (.refl _)
  | n + 1, k + 1, .ifElse e thenBranch (some elseBranch), h => by
    rw [execute, execute]
    have hle := Nat.le_of_succ_le_succ h
    refine (outlasted_evaluate e hle).bind fun value => ?_
    exact (outlasted_execute thenBranch hle).ite (outlasted_execute elseBranch hle)
  | n + 1, k + 1, .whileLoop e body, h => by
    rw [execute, execute]
    have hle := Nat.le_of_succ_le_succ h
    refine (outlasted_evaluate e hle).bind fun value => ?_
    refine OutlastedBy.ite ((outlasted_execute body hle).bind fun flow => ?_) (.refl _)
    cases flow with
    | returned value => exact .refl _
    | normal => exact outlasted_execute (.whileLoop e body) hle
  | n + 1, k + 1, .function declaration, _ => by
    rw [execute, execute]
    exact .refl _
  | n + 1, k + 1, .return _ value, h => by
    rw [execute, execute]
    exact (outlasted_evaluateOptional value (Nat.le_of_succ_le_succ h)).bind fun _ => .refl _
  | n + 1, k + 1, .class name superclass methods, _ => by
    rw [execute, execute]
    exact .refl _

theorem outlasted_executeAll : ∀ {n k : Nat} (body : List Stmt), n ≤ k →
    OutlastedBy (executeAll n body) (executeAll k body)
  | 0, _, _, _ => exhausted_outlastedBy _
  | n + 1, k + 1, [], _ => by
    rw [executeAll, executeAll]
    exact .refl _
  | n + 1, k + 1, s :: rest, h => by
    rw [executeAll, executeAll]
    have hle := Nat.le_of_succ_le_succ h
    refine (outlasted_execute s hle).bind fun flow => ?_
    cases flow with
    | returned value => exact .refl _
    | normal => exact outlasted_executeAll rest hle

theorem outlasted_evaluateOptional : ∀ {n k : Nat} (value : Option Expr), n ≤ k →
    OutlastedBy (evaluateOptional n value) (evaluateOptional k value)
  | 0, _, _, _ => exhausted_outlastedBy _
  | n + 1, k + 1, none, _ => by
    rw [evaluateOptional, evaluateOptional]
    exact .refl _
  | n + 1, k + 1, some e, h => by
    rw [evaluateOptional, evaluateOptional]
    exact outlasted_evaluate e (Nat.le_of_succ_le_succ h)

theorem outlasted_evaluate : ∀ {n k : Nat} (e : Expr), n ≤ k →
    OutlastedBy (evaluate n e) (evaluate k e)
  | 0, _, _, _ => exhausted_outlastedBy _
  | n + 1, k + 1, .literal _, _ => by
    rw [evaluate, evaluate]
    exact .refl _
  | n + 1, k + 1, .grouping inner, h => by
    rw [evaluate, evaluate]
    exact outlasted_evaluate inner (Nat.le_of_succ_le_succ h)
  | n + 1, k + 1, .unary _ _ operand, h => by
    rw [evaluate, evaluate]
    exact (outlasted_evaluate operand (Nat.le_of_succ_le_succ h)).bind fun _ => .refl _
  | n + 1, k + 1, .binary _ _ left right, h => by
    rw [evaluate, evaluate]
    have hle := Nat.le_of_succ_le_succ h
    refine (outlasted_evaluate left hle).bind fun a => ?_
    exact (outlasted_evaluate right hle).bind fun _ => .refl _
  | n + 1, k + 1, .logical _ _ left right, h => by
    rw [evaluate, evaluate]
    have hle := Nat.le_of_succ_le_succ h
    refine (outlasted_evaluate left hle).bind fun a => ?_
    exact OutlastedBy.ite (.refl _) (outlasted_evaluate right hle)
  | n + 1, k + 1, .variable _ _, _ => by
    rw [evaluate, evaluate]
    exact .refl _
  | n + 1, k + 1, .assign _ _ value, h => by
    rw [evaluate, evaluate]
    exact (outlasted_evaluate value (Nat.le_of_succ_le_succ h)).bind fun _ => .refl _
  | n + 1, k + 1, .call callee line args, h => by
    rw [evaluate, evaluate]
    have hle := Nat.le_of_succ_le_succ h
    refine (outlasted_evaluate callee hle).bind fun f => ?_
    refine (outlasted_evaluateAll args hle).bind fun values => ?_
    exact outlasted_call f line values hle
  | n + 1, k + 1, .get object _, h => by
    rw [evaluate, evaluate]
    exact (outlasted_evaluate object (Nat.le_of_succ_le_succ h)).bind fun _ => .refl _
  | n + 1, k + 1, .set object _ value, h => by
    rw [evaluate, evaluate]
    have hle := Nat.le_of_succ_le_succ h
    refine (outlasted_evaluate object hle).bind fun owner => ?_
    cases owner with
    | «instance» o => exact (outlasted_evaluate value hle).bind fun _ => .refl _
    | _ => exact .refl _
  | n + 1, k + 1, .this _ _, _ => by
    rw [evaluate, evaluate]
    exact .refl _
  | n + 1, k + 1, .super _ _ _, _ => by
    rw [evaluate, evaluate]
    exact .refl _

theorem outlasted_evaluateAll : ∀ {n k : Nat} (args : List Expr), n ≤ k →
    OutlastedBy (evaluateAll n args) (evaluateAll k args)
  | 0, _, _, _ => exhausted_outlastedBy _
  | n + 1, k + 1, [], _ => by
    rw [evaluateAll, evaluateAll]
    exact .refl _
  | n + 1, k + 1, e :: rest, h => by
    rw [evaluateAll, evaluateAll]
    have hle := Nat.le_of_succ_le_succ h
    refine (outlasted_evaluate e hle).bind fun value => ?_
    exact (outlasted_evaluateAll rest hle).bind fun _ => .refl _

theorem outlasted_call : ∀ {n k : Nat} (callee : Value) (line : Nat) (args : List Value), n ≤ k →
    OutlastedBy (call n callee line args) (call k callee line args)
  | 0, _, _, _, _, _ => exhausted_outlastedBy _
  | n + 1, k + 1, callee, line, args, h => by
    have hle := Nat.le_of_succ_le_succ h
    unfold call
    cases callee.arity? with
    | none => exact .refl _
    | some arity =>
      refine OutlastedBy.ite (.refl _) ?_
      cases callee with
      | function identity f => exact outlasted_invoke f args hle
      | «class» c => exact outlasted_instantiate c args hle
      | native f =>
        cases f
        exact .refl _
      | _ => exact .refl _

theorem outlasted_invoke : ∀ {n k : Nat} (f : Closure) (args : List Value), n ≤ k →
    OutlastedBy (invoke n f args) (invoke k f args)
  | 0, _, _, _, _ => exhausted_outlastedBy _
  | n + 1, k + 1, f, args, h => by
    rw [invoke, invoke]
    have hbody := outlasted_executeAll f.declaration.body (Nat.le_of_succ_le_succ h)
    refine (OutlastedBy.refl _).bind fun frame => (OutlastedBy.refl _).bind fun _ => ?_
    exact (hbody.within frame).bind fun _ => .refl _

theorem outlasted_instantiate : ∀ {n k : Nat} (c : ClassValue) (args : List Value), n ≤ k →
    OutlastedBy (instantiate n c args) (instantiate k c args)
  | 0, _, _, _, _ => exhausted_outlastedBy _
  | n + 1, k + 1, c, args, h => by
    rw [instantiate, instantiate]
    refine (OutlastedBy.refl _).bind fun o => ?_
    cases c.initializer? with
    | none => exact .refl _
    | some method =>
      refine (OutlastedBy.refl _).bind fun f => ?_
      exact (outlasted_invoke f args (Nat.le_of_succ_le_succ h)).bind fun _ => .refl _

end

end Run

end Treewalk
