import Treewalk.Proofs.Simulation.Matching

/-!
# Programs that are alike run alike

**From machines that are alike, programs that are alike run to the same end.**  Values that are
alike print the same text and are told apart in the same way, so operators, conditions and calls
take the same course.  As for single runs, the induction is on the number of steps.
-/

namespace Treewalk

open Correspondence

section Values

variable {c : Correspondence} {w : World} {value value' other other' : Value}

/-! ### What can be seen of values -/

theorem functionLike_name {renamings : List Renaming} {f f' : FunctionDecl}
    (h : FunctionLike c renamings f f') : f'.name.text = f.name.text := by
  cases h with
  | mk _ hname => exact hname.text

theorem functionLike_arity {renamings : List Renaming} {f f' : FunctionDecl}
    (h : FunctionLike c renamings f f') : f'.params.length = f.params.length := by
  cases h with
  | mk _ _ hparams => exact hparams.length_eq.symm

theorem isInitializer_like {renamings : List Renaming} {f f' : FunctionDecl}
    (h : FunctionLike c renamings f f') : f'.isInitializer = f.isInitializer := by
  unfold FunctionDecl.isInitializer
  rw [functionLike_name h]

theorem isTruthy_like (h : ValueLike c w value value') : value'.isTruthy = value.isTruthy := by
  cases h <;> rfl

theorem text_like (h : ValueLike c w value value') : value'.text = value.text := by
  cases h with
  | function hf =>
    obtain ⟨_, _, renamings, _, hlike⟩ := hf
    simp only [Value.text, Closure.name, functionLike_name hlike]
  | «class» hk => simp only [Value.text, hk.own.name]
  | «instance» ho => simp only [Value.text, ho.ofClass.own.name]
  | _ => rfl

theorem equals_like (h : ValueLike c w value value') (hother : ValueLike c w other other') :
    value'.equals other' = value.equals other := by
  cases h with
  | «class» hk =>
    cases hother with
    | «class» hk' => simp only [Value.equals, hk.own.identity, hk'.own.identity]
    | _ => rfl
  | «instance» ho =>
    cases hother with
    | «instance» ho' => simp only [Value.equals, ho.index, ho'.index]
    | _ => rfl
  | _ => cases hother <;> rfl

theorem initializer?_like {k k' : ClassValue} (hk : ClassLike c w k k') :
    Option.Rel (MethodLike c w) k.initializer? k'.initializer? :=
  Run.findMethod?_like hk initializerName

theorem arity?_like (h : ValueLike c w value value') : value'.arity? = value.arity? := by
  cases h with
  | function hf =>
    obtain ⟨_, _, renamings, _, hlike⟩ := hf
    simp only [Value.arity?, Closure.arity, functionLike_arity hlike]
  | «class» hk =>
    have hinit := initializer?_like hk
    simp only [Value.arity?, ClassValue.arity]
    generalize ClassValue.initializer? _ = method at hinit ⊢
    generalize ClassValue.initializer? _ = method' at hinit ⊢
    cases hinit with
    | none => rfl
    | some hmethod =>
      obtain ⟨_, _, renamings, _, hlike⟩ := hmethod
      simp only [Option.map_some, Option.getD_some, Closure.arity, functionLike_arity hlike]
  | _ => rfl

/-! ### Operators -/

/-- The same result, or the same fault. -/
def ResultLike (c : Correspondence) (w : World) (result result' : Except FaultCause Value) : Prop :=
  (∃ cause, result = .error cause ∧ result' = .error cause)
    ∨ ∃ a a', result = .ok a ∧ result' = .ok a' ∧ ValueLike c w a a'

theorem resultLike_error (cause : FaultCause) : ResultLike c w (.error cause) (.error cause) :=
  Or.inl ⟨cause, rfl, rfl⟩

theorem resultLike_ok {a a' : Value} (h : ValueLike c w a a') : ResultLike c w (.ok a) (.ok a') :=
  Or.inr ⟨a, a', rfl, rfl, h⟩

theorem unary_like (op : UnaryOp) (h : ValueLike c w value value') :
    ResultLike c w (op.apply value) (op.apply value') := by
  cases op with
  | not =>
    simp only [UnaryOp.apply, isTruthy_like h]
    exact resultLike_ok (.bool _)
  | negate =>
    cases h with
    | number a => exact resultLike_ok (.number _)
    | _ => exact resultLike_error _

/-- Only numbers pass, and those are the same. -/
theorem numberOperands_like (h : ValueLike c w value value') (hother : ValueLike c w other other') :
    BinaryOp.numberOperands value' other' = BinaryOp.numberOperands value other := by
  cases h with
  | number a => cases hother <;> rfl
  | _ => rfl

theorem arithmetic_like (operation : Float → Float → Float) (h : ValueLike c w value value')
    (hother : ValueLike c w other other') :
    ResultLike c w (BinaryOp.arithmetic operation value other)
      (BinaryOp.arithmetic operation value' other') := by
  unfold BinaryOp.arithmetic
  rw [numberOperands_like h hother]
  rcases BinaryOp.numberOperands value other with cause | ⟨a, b⟩
  · exact resultLike_error cause
  · exact resultLike_ok (.number _)

theorem comparison_like (holds : Float → Float → Bool) (h : ValueLike c w value value')
    (hother : ValueLike c w other other') :
    ResultLike c w (BinaryOp.comparison holds value other)
      (BinaryOp.comparison holds value' other') := by
  unfold BinaryOp.comparison
  rw [numberOperands_like h hother]
  rcases BinaryOp.numberOperands value other with cause | ⟨a, b⟩
  · exact resultLike_error cause
  · exact resultLike_ok (.bool _)

theorem sum_like (h : ValueLike c w value value') (hother : ValueLike c w other other') :
    ResultLike c w (BinaryOp.sum value other) (BinaryOp.sum value' other') := by
  cases h with
  | number a =>
    cases hother with
    | number b => exact resultLike_ok (.number _)
    | string b => exact resultLike_ok (.string _)
    | _ => exact resultLike_error _
  | string a =>
    cases hother with
    | number b => exact resultLike_ok (.string _)
    | string b => exact resultLike_ok (.string _)
    | _ => exact resultLike_error _
  | _ => exact resultLike_error _

theorem binary_like (op : BinaryOp) (h : ValueLike c w value value')
    (hother : ValueLike c w other other') :
    ResultLike c w (op.apply value other) (op.apply value' other') := by
  cases op with
  | add => exact sum_like h hother
  | subtract => exact arithmetic_like _ h hother
  | multiply => exact arithmetic_like _ h hother
  | divide => exact arithmetic_like _ h hother
  | less => exact comparison_like _ h hother
  | lessEqual => exact comparison_like _ h hother
  | greater => exact comparison_like _ h hother
  | greaterEqual => exact comparison_like _ h hother
  | equal =>
    simp only [BinaryOp.apply, equals_like h hother]
    exact resultLike_ok (.bool _)
  | notEqual =>
    simp only [BinaryOp.apply, equals_like h hother]
    exact resultLike_ok (.bool _)

theorem decides_like (op : LogicalOp) (h : ValueLike c w value value') :
    op.decides value' = op.decides value := by
  cases op <;> simp only [LogicalOp.decides, isTruthy_like h]

end Values

namespace Run

section Declarations

variable {c : Correspondence} {w : World} {m m' : Machine} {renamings : List Renaming}

/-! ### Declarations -/

theorem matches_bindParams {π : Renaming} {frame : FrameId} {outer : Option FrameId} :
    ∀ {params params' : List Name} {args args' : List Value} {w : World} {m m' : Machine},
    List.Forall₂ (NameLike c π) params params' → List.Forall₂ (ValueLike c w) args args' →
    MachineLike c w m m' → w[frame.index]? = some (π, outer) →
    Matches c w (bindParams frame params args) (bindParams frame params' args') m m'
      fun _ _ _ => True
  | [], [], _, _, _, _, _, .nil, _, hm, _ => matches_pure hm trivial
  | _ :: _, _ :: _, [], [], _, _, _, .cons _ _, .nil, hm, _ => matches_pure hm trivial
  | param :: params, param' :: params', argument :: args, argument' :: args', w, m, m',
      .cons hparam hparams, .cons hargument hargs, hm, hframe => by
    rw [bindParams, bindParams]
    refine (matches_define hm hframe hparam.text hargument).bind ?_
    intro later _ _ after after' hfollows _
    exact matches_bindParams hparams (hargs.imp fun _ _ => ValueLike.mono hfollows.world)
      hfollows.like (Labels.getElem?_mono hfollows.world hframe)

theorem matches_declareFunction (hm : MachineLike c w m m') (hchain : w.Chain m.current renamings)
    {f f' : FunctionDecl} (hname : renamings.headD .same f.name.text = f.name.text)
    (hf : FunctionLike c renamings f f') :
    Matches c w (declareFunction f) (declareFunction f') m m' fun _ _ _ => True := by
  obtain ⟨outer, hframe⟩ := hm.store.frame hchain
  unfold declareFunction
  apply matches_currentFrame hm
  have hclosure : ClosureLike c w ⟨f, m.current, false⟩ ⟨f', m.current, false⟩ :=
    ⟨rfl, rfl, renamings, hchain, hf⟩
  refine (matches_functionValue hm hclosure).bind fun later value value' _ _ hfollows hvalue => ?_
  refine matches_define hfollows.like (Labels.getElem?_mono hfollows.world hframe) ?_ hvalue
  rw [hname, functionLike_name hf]

theorem insertMethods_like {frame : FrameId} (hchain : w.Chain frame renamings) (name : String) :
    ∀ {methods methods' : List FunctionDecl},
    MethodsLike c (.same :: renamings) methods methods' →
    ∀ before before' : Std.ExtTreeMap String Closure,
    Option.Rel (MethodLike c w) before[name]? before'[name]? →
    Option.Rel (MethodLike c w)
      (methods.foldl (fun table f => table.insert f.name.text ⟨f, frame, f.isInitializer⟩)
        before)[name]?
      (methods'.foldl (fun table f => table.insert f.name.text ⟨f, frame, f.isInitializer⟩)
        before')[name]?
  | [], [], .nil, _, _, hbefore => hbefore
  | f :: methods, f' :: methods', .cons hf hmethods, before, before', hbefore => by
    apply insertMethods_like hchain name hmethods
    rw [Std.ExtTreeMap.getElem?_insert, Std.ExtTreeMap.getElem?_insert, functionLike_name hf]
    by_cases heq : compare f.name.text name = .eq
    · rw [if_pos heq, if_pos heq]
      exact .some ⟨rfl, isInitializer_like hf, renamings, hchain, hf⟩
    · rw [if_neg heq, if_neg heq]
      exact hbefore

theorem methodTable_like {frame : FrameId} (hchain : w.Chain frame renamings)
    {methods methods' : List FunctionDecl}
    (h : MethodsLike c (.same :: renamings) methods methods') (name : String) :
    Option.Rel (MethodLike c w) (methodTable frame methods)[name]?
      (methodTable frame methods')[name]? := by
  refine insertMethods_like hchain name h ∅ ∅ ?_
  simp only [Std.ExtTreeMap.getElem?_empty]
  exact .none

theorem matches_superclassOf (hm : MachineLike c w m m') (hchain : w.Chain m.current renamings)
    {superclass superclass' : Option Reference}
    (h : Option.Rel (SuperclassLike c renamings) superclass superclass') :
    Matches c w (superclassOf superclass) (superclassOf superclass') m m' fun later parent parent' =>
      parent.isSome = superclass.isSome ∧ Option.Rel (ClassLike c later) parent parent' := by
  cases h with
  | none => exact matches_pure hm ⟨rfl, .none⟩
  | some hparent =>
    rename_i reference reference'
    have hallowed := hm.store.renames_getD hchain
    have hread := matches_read hm hchain hparent.line hparent.ref
    have hid := hparent.id
    unfold superclassOf
    dsimp only
    rw [hid]
    refine hread.bind fun later value value' after after' hfollows hvalue => ?_
    have hsite : ∃ π, c.renames π ∧ NameLike c π reference.name reference'.name := by
      have htext := hparent.ref.text
      rcases hhops : c.left[reference.id]? with _ | hops <;> rw [hhops] at htext
      · exact ⟨.same, c.renames_same, htext, hparent.line⟩
      · exact ⟨_, hallowed hops, htext, hparent.line⟩
    obtain ⟨π, hπ, hname⟩ := hsite
    cases hvalue with
    | «class» hk => exact matches_pure hfollows.like ⟨rfl, .some hk⟩
    | _ => exact matches_throw hfollows.like (.fault hπ hname (Or.inr hparent.occurs))

theorem matches_methodFrame (hm : MachineLike c w m m') {frame : FrameId}
    (hchain : w.Chain frame renamings) {parent parent' : Option ClassValue}
    (hparent : Option.Rel (ClassLike c w) parent parent') :
    Matches c w (methodFrame frame parent) (methodFrame frame parent') m m'
      fun later inner inner' => inner' = inner
        ∧ later.Chain inner (if parent.isSome then .same :: renamings else renamings) := by
  cases hparent with
  | none => exact matches_pure hm ⟨rfl, hchain⟩
  | some hk =>
    unfold methodFrame
    refine (matches_child hm hchain c.renames_same).bind ?_
    rintro later inner _ after after' hfollows ⟨rfl, hinner, hget⟩
    have hvalue := ValueLike.class (hk.mono hfollows.world)
    refine (matches_define hfollows.like hget rfl hvalue).bind ?_
    intro last _ _ _ _ hlast _
    exact matches_pure hlast.like ⟨rfl, hinner.mono hlast.world⟩

theorem matches_newClass (hm : MachineLike c w m m') {name name' : String} (hname : name' = name)
    {parent parent' : Option ClassValue} (hparent : Option.Rel (ClassLike c w) parent parent')
    {methods methods' : Std.ExtTreeMap String Closure}
    (hmethods : ∀ name : String, Option.Rel (MethodLike c w) methods[name]? methods'[name]?) :
    Matches c w (newClass name parent methods) (newClass name' parent' methods') m m'
      (ClassLike c) := by
  subst hname
  unfold newClass
  refine (matches_freshIdentity hm).bind ?_
  rintro later _ identity after after' hfollows rfl
  have hown : LayerLike c later ⟨identity, name', methods⟩ ⟨identity, name', methods'⟩ :=
    ⟨rfl, rfl, fun name => option_mono (fun _ _ => MethodLike.mono hfollows.world) (hmethods name)⟩
  cases hparent with
  | none => exact matches_pure hfollows.like ⟨hown, .nil⟩
  | some hk =>
    have hk' := hk.mono hfollows.world
    exact matches_pure hfollows.like ⟨hown, .cons hk'.own hk'.ancestors⟩

theorem matches_declareClass (hm : MachineLike c w m m') (hchain : w.Chain m.current renamings)
    {name name' : Name} {superclass superclass' : Option Reference}
    {methods methods' : List FunctionDecl}
    (hfixed : renamings.headD .same name.text = name.text) (hname : NameLike c .same name name')
    (hsuperclass : Option.Rel (SuperclassLike c renamings) superclass superclass')
    (hmethods : MethodsLike c (methodRenamings superclass.isSome renamings) methods methods') :
    Matches c w (declareClass name superclass methods) (declareClass name' superclass' methods')
      m m' fun _ _ _ => True := by
  have htext : name'.text = name.text := hname.text
  unfold declareClass
  refine (matches_superclassOf hm hchain hsuperclass).bind ?_
  rintro w₁ parent parent' m₁ m₁' hfollows₁ ⟨hsome, hparent⟩
  have hchain₁ := hfollows₁.chain hchain
  obtain ⟨outer, hframe⟩ := hfollows₁.like.store.frame hchain₁
  have hlt := hfollows₁.like.store.lt_size hchain₁
  apply matches_currentFrame hfollows₁.like
  have hname₁ : name'.text = renamings.headD .same name.text := by rw [hfixed, htext]
  refine (matches_define hfollows₁.like hframe hname₁ .nil).bind_of_run ?_
  intro w₂ _ _ m₂ m₂' hrun hfollows₂ _
  have hbound₂ : (m₂.store.local? m₁.current name.text).isSome := by
    cases hrun
    show ((m₁.store.define m₁.current name.text .nil).local? m₁.current name.text).isSome
    rw [Store.local?_define_self hlt]
    rfl
  have hchain₂ := hchain₁.mono hfollows₂.world
  have hparent₂ := option_mono (fun _ _ => ClassLike.mono hfollows₂.world) hparent
  refine (matches_methodFrame hfollows₂.like hchain₂ hparent₂).bind ?_
  rintro w₃ inner _ m₃ m₃' hfollows₃ ⟨rfl, hinner⟩
  have hmethods₃ := methodTable_like hinner (by rw [hsome]; exact hmethods)
  have hparent₃ := option_mono (fun _ _ => ClassLike.mono hfollows₃.world) hparent₂
  refine (matches_newClass hfollows₃.like htext hparent₃ hmethods₃).bind ?_
  intro w₄ k k' m₄ m₄' hfollows₄ hk
  have hworld := (hfollows₂.world.trans hfollows₃.world).trans hfollows₄.world
  exact matches_assignOwn hfollows₄.like (Labels.getElem?_mono hworld hframe) hname₁
    (hfollows₄.grows.bound _ _ (hfollows₃.grows.bound _ _ hbound₂)) (.class hk)

end Declarations

/-! ### Statements and expressions -/

section Evaluation

variable {c : Correspondence}

mutual

theorem matches_execute : ∀ (steps : Nat) {s s' : Stmt} {w : World} {m m' : Machine}
    {renamings : List Renaming}, MachineLike c w m m' → w.Chain m.current renamings →
    StmtLike c renamings s s' →
    Matches c w (execute steps s) (execute steps s') m m' (FlowLike c)
  | 0, _, _, _, _, _, _, hm, _, _ => matches_exhausted hm
  | steps + 1, _, _, w, m, m', renamings, hm, hchain, .expression hvalue => by
    rw [execute, execute]
    refine (matches_evaluate steps hm hchain hvalue).bind fun later _ _ _ _ hfollows _ => ?_
    exact matches_pure hfollows.like .normal
  | steps + 1, _, _, w, m, m', renamings, hm, hchain, .print hvalue => by
    rw [execute, execute]
    refine (matches_evaluate steps hm hchain hvalue).bind ?_
    intro later value value' after after' hfollows hresult
    rw [text_like hresult]
    refine (matches_write hfollows.like _).bind fun last _ _ _ _ hlast _ => ?_
    exact matches_pure hlast.like .normal
  | steps + 1, _, _, w, m, m', renamings, hm, hchain, .var hname hinitializer => by
    rw [execute, execute]
    refine (matches_evaluateOptional steps hm hchain hinitializer).bind ?_
    intro later value value' after after' hfollows hvalue
    obtain ⟨outer, hframe⟩ := hfollows.like.store.frame (hfollows.chain hchain)
    apply matches_currentFrame hfollows.like
    refine (matches_define hfollows.like hframe hname.text hvalue).bind ?_
    intro last _ _ _ _ hlast _
    exact matches_pure hlast.like .normal
  | steps + 1, _, _, w, m, m', renamings, hm, hchain, .block hπ hbody => by
    rw [execute, execute]
    apply matches_currentFrame hm
    refine (matches_child hm hchain hπ).bind ?_
    rintro later frame _ after after' hfollows ⟨rfl, hinner, -⟩
    refine matches_within ?_ hfollows.like.current
    exact matches_executeAll steps (enter_like hfollows.like _) hinner hbody
  | steps + 1, _, _, w, m, m', renamings, hm, hchain, .ifThen hcondition hthen => by
    rw [execute, execute]
    refine (matches_evaluate steps hm hchain hcondition).bind ?_
    intro later value value' after after' hfollows hvalue
    rw [isTruthy_like hvalue]
    split
    · exact matches_execute steps hfollows.like (hfollows.chain hchain) hthen
    · exact matches_pure hfollows.like .normal
  | steps + 1, _, _, w, m, m', renamings, hm, hchain, .ifElse hcondition hthen helse => by
    rw [execute, execute]
    refine (matches_evaluate steps hm hchain hcondition).bind ?_
    intro later value value' after after' hfollows hvalue
    rw [isTruthy_like hvalue]
    split
    · exact matches_execute steps hfollows.like (hfollows.chain hchain) hthen
    · exact matches_execute steps hfollows.like (hfollows.chain hchain) helse
  | steps + 1, _, _, w, m, m', renamings, hm, hchain, .whileLoop hcondition hbody => by
    rw [execute, execute]
    refine (matches_evaluate steps hm hchain hcondition).bind ?_
    intro later value value' after after' hfollows hvalue
    rw [isTruthy_like hvalue]
    have hchain' := hfollows.chain hchain
    split
    · refine (matches_execute steps hfollows.like hchain' hbody).bind ?_
      intro last flow flow' after after' hlast hflow
      cases hflow with
      | returned hvalue => exact matches_pure hlast.like (.returned hvalue)
      | normal =>
        exact matches_execute steps hlast.like (hlast.chain hchain') (.whileLoop hcondition hbody)
    · exact matches_pure hfollows.like .normal
  | steps + 1, _, _, w, m, m', renamings, hm, hchain, .function hname hf => by
    rw [execute, execute]
    refine (matches_declareFunction hm hchain hname hf).bind fun _ _ _ _ _ hfollows _ => ?_
    exact matches_pure hfollows.like .normal
  | steps + 1, _, _, w, m, m', renamings, hm, hchain, .return hvalue => by
    rw [execute, execute]
    refine (matches_evaluateOptional steps hm hchain hvalue).bind fun _ _ _ _ _ hfollows h => ?_
    exact matches_pure hfollows.like (.returned h)
  | steps + 1, _, _, w, m, m', renamings, hm, hchain, .class hfixed hname hsuperclass hmethods => by
    rw [execute, execute]
    refine (matches_declareClass hm hchain hfixed hname hsuperclass hmethods).bind ?_
    intro _ _ _ _ _ hfollows _
    exact matches_pure hfollows.like .normal

theorem matches_executeAll : ∀ (steps : Nat) {body body' : List Stmt} {w : World} {m m' : Machine}
    {renamings : List Renaming}, MachineLike c w m m' → w.Chain m.current renamings →
    StatementsLike c renamings body body' →
    Matches c w (executeAll steps body) (executeAll steps body') m m' (FlowLike c)
  | 0, _, _, _, _, _, _, hm, _, _ => matches_exhausted hm
  | steps + 1, _, _, w, m, m', renamings, hm, _, .nil => by
    rw [executeAll]
    exact matches_pure hm .normal
  | steps + 1, _, _, w, m, m', renamings, hm, hchain, .cons hs hrest => by
    rw [executeAll, executeAll]
    refine (matches_execute steps hm hchain hs).bind ?_
    intro later flow flow' after after' hfollows hflow
    cases hflow with
    | returned hvalue => exact matches_pure hfollows.like (.returned hvalue)
    | normal => exact matches_executeAll steps hfollows.like (hfollows.chain hchain) hrest

theorem matches_evaluateOptional : ∀ (steps : Nat) {value value' : Option Expr} {w : World}
    {m m' : Machine} {renamings : List Renaming}, MachineLike c w m m' →
    w.Chain m.current renamings → OptionalLike c renamings value value' →
    Matches c w (evaluateOptional steps value) (evaluateOptional steps value') m m' (ValueLike c)
  | 0, _, _, _, _, _, _, hm, _, _ => matches_exhausted hm
  | steps + 1, _, _, w, m, m', renamings, hm, _, .none => by
    rw [evaluateOptional]
    exact matches_pure hm .nil
  | steps + 1, _, _, w, m, m', renamings, hm, hchain, .some hvalue => by
    rw [evaluateOptional, evaluateOptional]
    exact matches_evaluate steps hm hchain hvalue

theorem matches_evaluate : ∀ (steps : Nat) {e e' : Expr} {w : World} {m m' : Machine}
    {renamings : List Renaming}, MachineLike c w m m' → w.Chain m.current renamings →
    ExprLike c renamings e e' →
    Matches c w (evaluate steps e) (evaluate steps e') m m' (ValueLike c)
  | 0, _, _, _, _, _, _, hm, _, _ => matches_exhausted hm
  | steps + 1, _, _, w, m, m', renamings, hm, _, .literal value => by
    rw [evaluate]
    refine matches_pure hm ?_
    cases value with
    | number value => exact .number value
    | string value => exact .string value
    | true => exact .bool Bool.true
    | false => exact .bool Bool.false
    | nil => exact .nil
  | steps + 1, _, _, w, m, m', renamings, hm, hchain, .grouping hinner => by
    rw [evaluate, evaluate]
    exact matches_evaluate steps hm hchain hinner
  | steps + 1, _, _, w, m, m', renamings, hm, hchain, .unary hline hoperand => by
    rw [evaluate, evaluate]
    refine (matches_evaluate steps hm hchain hoperand).bind fun _ _ _ _ _ hfollows hvalue => ?_
    exact matches_orFault hfollows.like (keyword_like hline _) (unary_like _ hvalue)
  | steps + 1, _, _, w, m, m', renamings, hm, hchain, .binary hline hleft hright => by
    rw [evaluate, evaluate]
    refine (matches_evaluate steps hm hchain hleft).bind ?_
    intro later a a' after after' hfollows ha
    refine (matches_evaluate steps hfollows.like (hfollows.chain hchain) hright).bind ?_
    intro last b b' _ _ hlast hb
    exact matches_orFault hlast.like (keyword_like hline _)
      (binary_like _ (ha.mono hlast.world) hb)
  | steps + 1, _, _, w, m, m', renamings, hm, hchain, .logical hleft hright => by
    rw [evaluate, evaluate]
    refine (matches_evaluate steps hm hchain hleft).bind ?_
    intro later a a' after after' hfollows ha
    rw [decides_like _ ha]
    split
    · exact matches_pure hfollows.like ha
    · exact matches_evaluate steps hfollows.like (hfollows.chain hchain) hright
  | steps + 1, _, _, w, m, m', renamings, hm, hchain, .variable hline href => by
    rw [evaluate, evaluate]
    exact matches_read hm hchain hline href
  | steps + 1, _, _, w, m, m', renamings, hm, hchain, .assign hline href hvalue => by
    rw [evaluate, evaluate]
    refine (matches_evaluate steps hm hchain hvalue).bind ?_
    intro later value value' after after' hfollows hresult
    refine (matches_assign hfollows.like (hfollows.chain hchain) hline href hresult).bind ?_
    intro last _ _ _ _ hlast _
    exact matches_pure hlast.like (hresult.mono hlast.world)
  | steps + 1, _, _, w, m, m', renamings, hm, hchain, .call hcallee hline hargs => by
    rw [evaluate, evaluate]
    refine (matches_evaluate steps hm hchain hcallee).bind ?_
    intro later f f' after after' hfollows hf
    refine (matches_evaluateAll steps hfollows.like (hfollows.chain hchain) hargs).bind ?_
    intro last args args' _ _ hlast hvalues
    exact matches_call steps hlast.like (hf.mono hlast.world) hline hvalues
  | steps + 1, _, _, w, m, m', renamings, hm, hchain, .get hobject hname => by
    rw [evaluate, evaluate]
    refine (matches_evaluate steps hm hchain hobject).bind fun _ _ _ _ _ hfollows hvalue => ?_
    cases hvalue with
    | «instance» ho => exact matches_property hfollows.like ho hname
    | _ => exact matches_fault hfollows.like hname _
  | steps + 1, _, _, w, m, m', renamings, hm, hchain, .set hobject hname hvalue => by
    have htext := hname.text
    rw [evaluate, evaluate]
    refine (matches_evaluate steps hm hchain hobject).bind ?_
    intro later o o' after after' hfollows ho
    cases ho with
    | «instance» ho =>
      refine (matches_evaluate steps hfollows.like (hfollows.chain hchain) hvalue).bind ?_
      intro last value value' _ _ hlast hresult
      refine (matches_setField hlast.like (ho.mono hlast.world) htext hresult).bind ?_
      intro final _ _ _ _ hfinal _
      exact matches_pure hfinal.like (hresult.mono hfinal.world)
    | _ => exact matches_fault hfollows.like hname _
  | steps + 1, _, _, w, m, m', renamings, hm, hchain, .this hline href => by
    rw [evaluate, evaluate]
    exact matches_read hm hchain hline href
  | steps + 1, _, _, w, m, m', renamings, hm, hchain, .super hline hsuper hname => by
    rw [evaluate, evaluate]
    exact matches_superMethod hm hchain hline hsuper hname

theorem matches_evaluateAll : ∀ (steps : Nat) {args args' : List Expr} {w : World}
    {m m' : Machine} {renamings : List Renaming}, MachineLike c w m m' →
    w.Chain m.current renamings → ArgumentsLike c renamings args args' →
    Matches c w (evaluateAll steps args) (evaluateAll steps args') m m' fun later =>
      List.Forall₂ (ValueLike c later)
  | 0, _, _, _, _, _, _, hm, _, _ => matches_exhausted hm
  | steps + 1, _, _, w, m, m', renamings, hm, _, .nil => by
    rw [evaluateAll]
    exact matches_pure hm .nil
  | steps + 1, _, _, w, m, m', renamings, hm, hchain, .cons he hrest => by
    rw [evaluateAll, evaluateAll]
    refine (matches_evaluate steps hm hchain he).bind ?_
    intro later value value' after after' hfollows hvalue
    refine (matches_evaluateAll steps hfollows.like (hfollows.chain hchain) hrest).bind ?_
    intro last values values' _ _ hlast hvalues
    exact matches_pure hlast.like (.cons (hvalue.mono hlast.world) hvalues)

theorem matches_call : ∀ (steps : Nat) {callee callee' : Value} {line line' : Nat}
    {args args' : List Value} {w : World} {m m' : Machine}, MachineLike c w m m' →
    ValueLike c w callee callee' → c.lines line line' → List.Forall₂ (ValueLike c w) args args' →
    Matches c w (call steps callee line args) (call steps callee' line' args') m m' (ValueLike c)
  | 0, _, _, _, _, _, _, _, _, _, hm, _, _, _ => matches_exhausted hm
  | steps + 1, callee, callee', line, line', args, args', w, m, m', hm, hcallee, hline, hargs => by
    have hsite := keyword_like hline ")"
    unfold call
    rw [arity?_like hcallee, text_like hcallee, ← hargs.length_eq]
    rcases harity : callee.arity? with _ | arity
    · exact matches_fault hm hsite _
    · by_cases hlength : args.length = arity
      · simp only [hlength, ne_eq, not_true_eq_false, if_false]
        cases hcallee with
        | native f =>
          cases f
          exact matches_clock hm
        | function hf => exact matches_invoke steps hm hf hargs
        | «class» hk => exact matches_instantiate steps hm hk hargs
        | _ => exact matches_fault hm hsite _
      · simp only [hlength, ne_eq, not_false_eq_true, if_true]
        exact matches_fault hm hsite _

theorem matches_invoke : ∀ (steps : Nat) {f f' : Closure} {args args' : List Value} {w : World}
    {m m' : Machine}, MachineLike c w m m' → ClosureLike c w f f' →
    List.Forall₂ (ValueLike c w) args args' →
    Matches c w (invoke steps f args) (invoke steps f' args') m m' (ValueLike c)
  | 0, _, _, _, _, _, _, _, hm, _, _ => matches_exhausted hm
  | steps + 1, f, f', args, args', w, m, m', hm, hf, hargs => by
    obtain ⟨hframe, hinit, renamings, hchain, hlike⟩ := hf
    rw [invoke, invoke, hframe, hinit]
    generalize f.declaration = declaration at hlike
    generalize f'.declaration = declaration' at hlike
    cases hlike with
    | mk hπ _ hparams _ hbody =>
      refine (matches_child hm hchain hπ).bind ?_
      rintro w₁ frame _ m₁ m₁' hfollows₁ ⟨rfl, hinner₁, hget₁⟩
      have hargs₁ := hargs.imp fun _ _ => ValueLike.mono hfollows₁.world
      refine (matches_bindParams hparams hargs₁ hfollows₁.like hget₁).bind ?_
      intro w₂ _ _ m₂ m₂' hfollows₂ _
      have hinner₂ := hinner₁.mono hfollows₂.world
      have hbody₂ := matches_executeAll steps (enter_like hfollows₂.like _) hinner₂ hbody
      refine (matches_within hbody₂ hfollows₂.like.current).bind ?_
      intro w₃ flow flow' m₃ m₃' hfollows₃ hflow
      split
      · have hworld := (hfollows₁.world.trans hfollows₂.world).trans hfollows₃.world
        have hchain₃ := hchain.mono hworld
        have hthis := c.renames_this _ (hfollows₃.like.store.renames_getD hchain₃ 0)
        exact matches_within (matches_readAt (enter_like hfollows₃.like _) hchain₃ 0 hthis.symm)
          hfollows₃.like.current
      · cases hflow with
        | returned hvalue => exact matches_pure hfollows₃.like hvalue
        | normal => exact matches_pure hfollows₃.like .nil

theorem matches_instantiate : ∀ (steps : Nat) {k k' : ClassValue} {args args' : List Value}
    {w : World} {m m' : Machine}, MachineLike c w m m' → ClassLike c w k k' →
    List.Forall₂ (ValueLike c w) args args' →
    Matches c w (instantiate steps k args) (instantiate steps k' args') m m' (ValueLike c)
  | 0, _, _, _, _, _, _, _, hm, _, _ => matches_exhausted hm
  | steps + 1, k, k', args, args', w, m, m', hm, hk, hargs => by
    have hmethod := initializer?_like hk
    rw [instantiate, instantiate]
    refine (matches_newInstance hm hk).bind ?_
    rintro w₁ o o' m₁ m₁' hfollows₁ ⟨ho, rfl, rfl⟩
    generalize o.ofClass.initializer? = initializer at hmethod ⊢
    generalize o'.ofClass.initializer? = initializer' at hmethod ⊢
    cases hmethod with
    | none => exact matches_pure hfollows₁.like (.instance ho)
    | some hmethod =>
      have hmethod₁ := hmethod.mono hfollows₁.world
      refine (matches_bindMethod hfollows₁.like hmethod₁ ho).bind ?_
      intro w₂ f f' m₂ m₂' hfollows₂ hf
      have hworld := hfollows₁.world.trans hfollows₂.world
      have hargs₂ := hargs.imp fun _ _ => ValueLike.mono hworld
      refine (matches_invoke steps hfollows₂.like hf hargs₂).bind ?_
      intro w₃ _ _ m₃ m₃' hfollows₃ _
      have ho₂ := ho.mono hfollows₂.world
      exact matches_pure hfollows₃.like (.instance (ho₂.mono hfollows₃.world))

end

/-! ### Programs -/

theorem matches_executeTop (steps : Nat) {P P' : Program} {w : World} {m m' : Machine}
    (hm : MachineLike c w m m') (hchain : w.Chain m.current []) (h : StatementsLike c [] P P') :
    Matches c w (executeTop steps P) (executeTop steps P') m m' fun _ _ _ => True := by
  induction P generalizing P' w m m' with
  | nil =>
    cases h with
    | nil => exact matches_pure hm trivial
  | cons s rest ih =>
    cases h with
    | cons hs hrest =>
      rw [executeTop, executeTop]
      refine (matches_execute steps hm hchain hs).bind fun later _ _ _ _ hfollows _ => ?_
      exact ih hfollows.like (hfollows.chain hchain) hrest

theorem matches_interpret (steps : Nat) {P P' : Program} {w : World} {m m' : Machine}
    (hm : MachineLike c w m m') (hchain : w.Chain m.current []) (h : StatementsLike c [] P P') :
    Matches c w (interpret steps P) (interpret steps P') m m' fun _ _ _ => True := by
  unfold interpret
  refine (matches_executeTop steps hm hchain h).bind fun _ _ _ _ _ hfollows _ => ?_
  exact matches_flush hfollows.like

end Evaluation

end Run

end Treewalk
