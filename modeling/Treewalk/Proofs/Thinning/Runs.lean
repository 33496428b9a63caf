import Treewalk.Proofs.Thinning.Actions

/-!
# Code runs alike without the frames that are left out

**From machines that are aligned, code and the same code placed in the fewer scopes run to the same
end.**  Values print the same text and are told apart in the same way, so operators, conditions and
calls take the same course.  The induction is on the number of steps, which is the same on both sides.
-/

namespace Treewalk

open Tables

namespace Tables

section Values

variable {c : Tables} {w : Pairing} {value value' other other' : Value}

/-! ### What can be seen of values -/

theorem FunctionLike.name {L R : List Scope} {f f' : FunctionDecl} (h : FunctionLike c L R f f') :
    f'.name = f.name := by
  obtain ⟨ι, rfl⟩ := h.moved
  rw [FunctionDecl.name_move, Name.move_ofIds]

theorem FunctionLike.params {L R : List Scope} {f f' : FunctionDecl} (h : FunctionLike c L R f f') :
    f'.params = f.params := by
  obtain ⟨ι, rfl⟩ := h.moved
  obtain ⟨name, params, body⟩ := f
  rw [FunctionDecl.move]
  exact names_move_ofIds ι params

theorem ValueLike.isTruthy (h : ValueLike c w value value') : value'.isTruthy = value.isTruthy := by
  cases h <;> rfl

theorem ValueLike.text (h : ValueLike c w value value') : value'.text = value.text := by
  cases h with
  | function hf =>
    obtain ⟨_, _, _, _, _, hlike⟩ := hf
    simp only [Value.text, Closure.name, hlike.name]
  | «class» hk => simp only [Value.text, hk.own.name]
  | «instance» ho => simp only [Value.text, ho.ofClass.own.name]
  | _ => rfl

theorem ValueLike.equals (h : ValueLike c w value value') (hother : ValueLike c w other other') :
    value'.equals other' = value.equals other := by
  cases h with
  | «class» hk =>
    cases hother with
    | «class» hk' => simp only [Value.equals, hk.own.identity, hk'.own.identity]
    | _ => rfl
  | «instance» ho =>
    cases hother with
    | «instance» ho' => simp only [Value.equals, ho.index, ho'.index]
    | _ => rfl
  | _ => cases hother <;> rfl

theorem ClassLike.initializer? {k k' : ClassValue} (hk : ClassLike c w k k') :
    Option.Rel (MethodLike c w) k.initializer? k'.initializer? :=
  Run.findMethod?_aligned hk initializerName

theorem ValueLike.arity? (h : ValueLike c w value value') : value'.arity? = value.arity? := by
  cases h with
  | function hf =>
    obtain ⟨_, _, _, _, _, hlike⟩ := hf
    simp only [Value.arity?, Closure.arity, hlike.params]
  | «class» hk =>
    have hinit := hk.initializer?
    simp only [Value.arity?, ClassValue.arity]
    generalize ClassValue.initializer? _ = method at hinit ⊢
    generalize ClassValue.initializer? _ = method' at hinit ⊢
    cases hinit with
    | none => rfl
    | some hmethod =>
      obtain ⟨_, _, _, _, _, hlike⟩ := hmethod
      simp only [Option.map_some, Option.getD_some, Closure.arity, hlike.params]
  | _ => rfl

/-! ### Operators -/

theorem ValueLike.unary (op : UnaryOp) (h : ValueLike c w value value') :
    op.apply value' = op.apply value := by
  cases op with
  | not => simp only [UnaryOp.apply, h.isTruthy]
  | negate => cases h <;> rfl

theorem ValueLike.numberOperands (h : ValueLike c w value value')
    (hother : ValueLike c w other other') :
    BinaryOp.numberOperands value' other' = BinaryOp.numberOperands value other := by
  cases h with
  | number a => cases hother <;> rfl
  | _ => rfl

theorem ValueLike.sum (h : ValueLike c w value value') (hother : ValueLike c w other other') :
    BinaryOp.sum value' other' = BinaryOp.sum value other := by
  cases h with
  | number a => cases hother <;> rfl
  | string a => cases hother <;> rfl
  | _ => rfl

theorem ValueLike.binary (op : BinaryOp) (h : ValueLike c w value value')
    (hother : ValueLike c w other other') : op.apply value' other' = op.apply value other := by
  cases op with
  | add => exact h.sum hother
  | equal => simp only [BinaryOp.apply, h.equals hother]
  | notEqual => simp only [BinaryOp.apply, h.equals hother]
  | _ =>
    simp only [BinaryOp.apply, BinaryOp.arithmetic, BinaryOp.comparison, h.numberOperands hother]

theorem ValueLike.decides (op : LogicalOp) (h : ValueLike c w value value') :
    op.decides value' = op.decides value := by
  cases op <;> simp only [LogicalOp.decides, h.isTruthy]

end Values

end Tables

namespace Run

section Declarations

variable {c : Tables} {w : Pairing} {m m' : Machine} {L R : List Scope} {frame frame' : FrameId}

/-! ### Declarations -/

theorem aligned_bindParams : ∀ (params : List Name) {args args' : List Value} {w : Pairing}
    {m m' : Machine}, List.Forall₂ (ValueLike c w) args args' → MachineLike c w m m' →
    w.Kept frame frame' →
    Aligned c w (bindParams frame params args) (bindParams frame' params args') m m'
      fun _ _ _ => True
  | [], _, _, _, _, _, .nil, hm, _ => aligned_pure hm trivial
  | [], _, _, _, _, _, .cons _ _, hm, _ => aligned_pure hm trivial
  | _ :: _, _, _, _, _, _, .nil, hm, _ => aligned_pure hm trivial
  | param :: params, _, _, w, m, m', .cons hargument hargs, hm, hkept => by
    rw [bindParams, bindParams]
    refine (aligned_define hm hkept param.text hargument).bind ?_
    intro later _ _ after after' hon _
    exact aligned_bindParams params (hargs.imp fun _ _ => ValueLike.mono hon.world) hon.like
      (hkept.mono hon.world)

theorem aligned_declareFunction (hm : MachineLike c w m m') (haround : w.Around m.current L R)
    (hkept : w.Kept m.current m'.current) {f f' : FunctionDecl}
    (hf : FunctionLike c (putName f.name.text .defined L) (putName f.name.text .defined R) f f') :
    Aligned c w (declareFunction f) (declareFunction f') m m' fun _ _ _ => True := by
  unfold declareFunction
  apply aligned_currentFrame hm
  have hclosure : ClosureLike c w ⟨f, m.current, false⟩ ⟨f', m'.current, false⟩ :=
    ⟨hkept, rfl, _, _, haround.putName hkept f.name.text .defined, hf⟩
  refine (aligned_functionValue hm hclosure).bind fun later value value' _ _ hon hvalue => ?_
  rw [hf.name]
  exact aligned_define hon.like (hkept.mono hon.world) f.name.text hvalue

/-- Methods with the same names, each like its counterpart. -/
theorem insertMethods_aligned (hkept : w.Kept frame frame') (haround : w.Around frame L R)
    (name : String) (ι : Nat → Nat) : ∀ {methods : List FunctionDecl},
    PlacedMethods c.left (fun _ => True) (thisScope :: L) methods →
    PlacedMethods c.right (fun _ => True) (thisScope :: R) (moveMethods (.ofIds ι) methods) →
    ∀ before before' : Std.ExtTreeMap String Closure,
    Option.Rel (MethodLike c w) before[name]? before'[name]? →
    Option.Rel (MethodLike c w)
      (methods.foldl (fun table f => table.insert f.name.text ⟨f, frame, f.isInitializer⟩)
        before)[name]?
      ((moveMethods (.ofIds ι) methods).foldl
        (fun table f => table.insert f.name.text ⟨f, frame', f.isInitializer⟩) before')[name]?
  | [], _, _, _, _, hbefore => hbefore
  | f :: methods, hleft, hright, before, before', hbefore => by
    rw [PlacedMethods] at hleft
    rw [moveMethods, PlacedMethods] at hright
    rw [moveMethods, List.foldl_cons, List.foldl_cons]
    apply insertMethods_aligned hkept haround name ι hleft.2 hright.2
    rw [Std.ExtTreeMap.getElem?_insert, Std.ExtTreeMap.getElem?_insert, FunctionDecl.name_move,
      Name.text_move, FunctionDecl.isInitializer_move]
    by_cases heq : compare f.name.text name = .eq
    · rw [if_pos heq, if_pos heq]
      exact .some ⟨hkept, rfl, L, R, haround, ⟨ι, rfl⟩, hleft.1, hright.1⟩
    · rw [if_neg heq, if_neg heq]
      exact hbefore

theorem methodTable_aligned (hkept : w.Kept frame frame') (haround : w.Around frame L R)
    {ι : Nat → Nat} {methods : List FunctionDecl}
    (hleft : PlacedMethods c.left (fun _ => True) (thisScope :: L) methods)
    (hright : PlacedMethods c.right (fun _ => True) (thisScope :: R) (moveMethods (.ofIds ι) methods))
    (name : String) :
    Option.Rel (MethodLike c w) (methodTable frame methods)[name]?
      (methodTable frame' (moveMethods (.ofIds ι) methods))[name]? := by
  refine insertMethods_aligned hkept haround name ι hleft hright ∅ ∅ ?_
  simp only [Std.ExtTreeMap.getElem?_empty]
  exact .none

theorem aligned_superclassOf (hm : MachineLike c w m m') (haround : w.Around m.current L R)
    {name : Name} {superclass : Option Reference} {ι : Nat → Nat}
    (hleft : SuperclassPlaced c.left L name superclass)
    (hright : SuperclassPlaced c.right R name (superclass.map (Reference.move (.ofIds ι)))) :
    Aligned c w (superclassOf superclass) (superclassOf (superclass.map (Reference.move (.ofIds ι))))
      m m' fun later parent parent' =>
        parent.isSome = superclass.isSome ∧ Option.Rel (ClassLike c later) parent parent' := by
  cases superclass with
  | none => exact aligned_pure hm ⟨rfl, .none⟩
  | some parent =>
    refine (aligned_read hm haround (hleft parent rfl).2 (hright _ rfl).2).bind ?_
    intro later value value' after after' hon hvalue
    cases hvalue with
    | «class» hk => exact aligned_pure hon.like ⟨rfl, .some hk⟩
    | _ => exact aligned_fault hon.like _ _

theorem aligned_methodFrame (hm : MachineLike c w m m') (hkept : w.Kept frame frame')
    (haround : w.Around frame L R) {parent parent' : Option ClassValue}
    (hparent : Option.Rel (ClassLike c w) parent parent') :
    Aligned c w (methodFrame frame parent) (methodFrame frame' parent') m m'
      fun later inner inner' => later.Kept inner inner'
        ∧ later.Around inner (if parent.isSome then superScope :: L else L)
          (if parent.isSome then superScope :: R else R) := by
  cases hparent with
  | none => exact aligned_pure hm ⟨hkept, haround⟩
  | some hk =>
    unfold methodFrame
    refine (aligned_child hm hkept.stands).bind ?_
    rintro later inner inner' after after' hon ⟨hnew, hinner⟩
    refine (aligned_define hon.like hnew "super" (.class (hk.mono hon.world))).bind ?_
    intro last _ _ _ _ hlast _
    exact aligned_pure hlast.like
      ⟨hnew.mono hlast.world, (hinner haround superScope).mono hlast.world⟩

theorem aligned_newClass (hm : MachineLike c w m m') (name : String)
    {parent parent' : Option ClassValue} (hparent : Option.Rel (ClassLike c w) parent parent')
    {methods methods' : Std.ExtTreeMap String Closure}
    (hmethods : ∀ name : String, Option.Rel (MethodLike c w) methods[name]? methods'[name]?) :
    Aligned c w (newClass name parent methods) (newClass name parent' methods') m m'
      (ClassLike c) := by
  unfold newClass
  refine (aligned_freshIdentity hm).bind ?_
  rintro later _ identity after after' hon rfl
  have hown : LayerLike c later ⟨identity, name, methods⟩ ⟨identity, name, methods'⟩ :=
    ⟨rfl, rfl, fun name =>
      Correspondence.option_mono (fun _ _ => MethodLike.mono hon.world) (hmethods name)⟩
  cases hparent with
  | none => exact aligned_pure hon.like ⟨hown, .nil⟩
  | some hk =>
    have hk' := hk.mono hon.world
    exact aligned_pure hon.like ⟨hown, .cons hk'.own hk'.ancestors⟩

theorem aligned_declareClass (hm : MachineLike c w m m') (haround : w.Around m.current L R)
    (hkept : w.Kept m.current m'.current) {name : Name} {superclass : Option Reference}
    {methods : List FunctionDecl} {ι : Nat → Nat}
    (hsuperclass : SuperclassPlaced c.left L name superclass)
    (hsuperclass' : SuperclassPlaced c.right R name (superclass.map (Reference.move (.ofIds ι))))
    (hmethods : PlacedMethods c.left (fun _ => True)
      (methodScopes superclass.isSome (putName name.text .defined L)) methods)
    (hmethods' : PlacedMethods c.right (fun _ => True)
      (methodScopes superclass.isSome (putName name.text .defined R))
      (moveMethods (.ofIds ι) methods)) :
    Aligned c w (declareClass name superclass methods)
      (declareClass name (superclass.map (Reference.move (.ofIds ι)))
        (moveMethods (.ofIds ι) methods)) m m' fun _ _ _ => True := by
  unfold declareClass
  refine (aligned_superclassOf hm haround hsuperclass hsuperclass').bind ?_
  rintro w₁ parent parent' m₁ m₁' hon₁ ⟨hsome, hparent⟩
  have hkept₁ := hon₁.kept hkept
  apply aligned_currentFrame hon₁.like
  refine (aligned_define hon₁.like hkept₁ name.text .nil).bind_of_run ?_
  intro w₂ _ _ m₂ m₂' hrun hon₂ _
  have hbound₂ : (m₂.store.local? m₁.current name.text).isSome := by
    cases hrun
    show ((m₁.store.define m₁.current name.text .nil).local? m₁.current name.text).isSome
    rw [Store.local?_define_self (hon₁.like.store.lt_size hkept₁.stands)]
    rfl
  have hkept₂ := hkept₁.mono hon₂.world
  have haround₂ := ((hon₁.around haround).mono hon₂.world).putName hkept₂ name.text .defined
  have hparent₂ := Correspondence.option_mono (fun _ _ => ClassLike.mono hon₂.world) hparent
  refine (aligned_methodFrame hon₂.like hkept₂ haround₂ hparent₂).bind ?_
  rintro w₃ inner inner' m₃ m₃' hon₃ ⟨hnew, hinner⟩
  rw [hsome] at hinner
  have hmethods₃ := methodTable_aligned hnew hinner hmethods hmethods'
  have hparent₃ := Correspondence.option_mono (fun _ _ => ClassLike.mono hon₃.world) hparent₂
  refine (aligned_newClass hon₃.like name.text hparent₃ hmethods₃).bind ?_
  intro w₄ k k' m₄ m₄' hon₄ hk
  have hkept₄ := (hkept₂.mono hon₃.world).mono hon₄.world
  exact aligned_assignOwn hon₄.like hkept₄
    (hon₄.grows.bound _ _ (hon₃.grows.bound _ _ hbound₂)) (.class hk)

end Declarations

/-! ### Statements and expressions -/

section Evaluation

variable {c : Tables}

mutual

theorem aligned_execute : ∀ (steps : Nat) (s : Stmt) {ι : Nat → Nat} {w : Pairing}
    {m m' : Machine} {L R : List Scope}, MachineLike c w m m' → w.Around m.current L R →
    (s.isDeclaration = true → w.Kept m.current m'.current) →
    s.Placed c.left (fun _ => True) L → (s.move (.ofIds ι)).Placed c.right (fun _ => True) R →
    Aligned c w (execute steps s) (execute steps (s.move (.ofIds ι))) m m' (FlowLike c)
  | 0, _, _, _, _, _, _, _, hm, _, _, _, _ => aligned_exhausted hm
  | steps + 1, .expression value, ι, w, m, m', L, R, hm, haround, _, hleft, hright => by
    rw [Stmt.move, execute, execute]
    refine (aligned_evaluate steps value hm haround hleft hright).bind fun later _ _ _ _ hon _ => ?_
    exact aligned_pure hon.like .normal
  | steps + 1, .print value, ι, w, m, m', L, R, hm, haround, _, hleft, hright => by
    rw [Stmt.move, execute, execute]
    refine (aligned_evaluate steps value hm haround hleft hright).bind ?_
    intro later result result' after after' hon hresult
    rw [hresult.text]
    refine (aligned_write hon.like _).bind fun last _ _ _ _ hlast _ => ?_
    exact aligned_pure hlast.like .normal
  | steps + 1, .var name value, ι, w, m, m', L, R, hm, haround, hdeclares, hleft, hright => by
    have hkept := hdeclares rfl
    rw [Stmt.Placed] at hleft
    rw [Stmt.move, Stmt.Placed] at hright
    rw [Stmt.move, execute, execute]
    refine (aligned_evaluateOptional steps value hm
      (haround.putName hkept name.text .declared) hleft hright).bind ?_
    intro later result result' after after' hon hresult
    apply aligned_currentFrame hon.like
    refine (aligned_define hon.like (hon.kept hkept) name.text hresult).bind ?_
    intro last _ _ _ _ hlast _
    exact aligned_pure hlast.like .normal
  | steps + 1, .block body, ι, w, m, m', L, R, hm, haround, _, hleft, hright => by
    rw [Stmt.Placed] at hleft
    rw [Stmt.move, Stmt.Placed] at hright
    rw [Stmt.move, execute, execute]
    apply aligned_currentFrame hm
    refine (aligned_child hm hm.current).bind ?_
    rintro later frame frame' after after' hon ⟨hkept, hinner⟩
    refine aligned_within hon.like ?_
    exact aligned_executeAll steps body (enter_aligned hon.like hkept.stands) (hinner haround ∅)
      hkept hleft hright
  | steps + 1, .ifElse condition thenBranch none, ι, w, m, m', L, R, hm, haround, _, hleft,
      hright => by
    rw [Stmt.Placed] at hleft
    rw [Stmt.move, Stmt.Placed] at hright
    rw [Stmt.move, execute, execute]
    refine (aligned_evaluate steps condition hm haround hleft.1 hright.1).bind ?_
    intro later value value' after after' hon hvalue
    rw [hvalue.isTruthy]
    split
    · exact aligned_execute steps thenBranch hon.like (hon.around haround)
        (fun h => by rw [hleft.2.2] at h; cases h) hleft.2.1 hright.2.1
    · exact aligned_pure hon.like .normal
  | steps + 1, .ifElse condition thenBranch (some elseBranch), ι, w, m, m', L, R, hm, haround, _,
      hleft, hright => by
    rw [Stmt.Placed] at hleft
    rw [Stmt.move, Stmt.Placed] at hright
    rw [Stmt.move, execute, execute]
    refine (aligned_evaluate steps condition hm haround hleft.1 hright.1).bind ?_
    intro later value value' after after' hon hvalue
    rw [hvalue.isTruthy]
    split
    · exact aligned_execute steps thenBranch hon.like (hon.around haround)
        (fun h => by rw [hleft.2.1.2] at h; cases h) hleft.2.1.1 hright.2.1.1
    · exact aligned_execute steps elseBranch hon.like (hon.around haround)
        (fun h => by rw [hleft.2.2.2] at h; cases h) hleft.2.2.1 hright.2.2.1
  | steps + 1, .whileLoop condition body, ι, w, m, m', L, R, hm, haround, _, hleft, hright => by
    have hloop := hleft
    have hloop' := hright
    rw [Stmt.Placed] at hleft
    rw [Stmt.move, Stmt.Placed] at hright
    rw [Stmt.move, execute, execute, ← Stmt.move]
    refine (aligned_evaluate steps condition hm haround hleft.1 hright.1).bind ?_
    intro later value value' after after' hon hvalue
    have haround' := hon.around haround
    rw [hvalue.isTruthy]
    split
    · refine (aligned_execute steps body hon.like haround'
        (fun h => by rw [hleft.2.2] at h; cases h) hleft.2.1 hright.2.1).bind ?_
      intro last flow flow' after after' hlast hflow
      cases hflow with
      | returned hvalue => exact aligned_pure hlast.like (.returned hvalue)
      | normal =>
        exact aligned_execute steps (.whileLoop condition body) hlast.like (hlast.around haround')
          nofun hloop hloop'
    · exact aligned_pure hon.like .normal
  | steps + 1, .function declaration, ι, w, m, m', L, R, hm, haround, hdeclares, hleft, hright => by
    rw [Stmt.Placed] at hleft
    rw [Stmt.move, Stmt.Placed, FunctionDecl.name_move, Name.text_move] at hright
    rw [Stmt.move, execute, execute]
    refine (aligned_declareFunction hm haround (hdeclares rfl) ⟨⟨ι, rfl⟩, hleft, hright⟩).bind ?_
    intro later _ _ _ _ hon _
    exact aligned_pure hon.like .normal
  | steps + 1, .return line value, ι, w, m, m', L, R, hm, haround, _, hleft, hright => by
    rw [Stmt.Placed] at hleft
    rw [Stmt.move, Stmt.Placed] at hright
    rw [Stmt.move, execute, execute]
    refine (aligned_evaluateOptional steps value hm haround hleft hright).bind ?_
    intro later _ _ _ _ hon hvalue
    exact aligned_pure hon.like (.returned hvalue)
  | steps + 1, .class name superclass methods, ι, w, m, m', L, R, hm, haround, hdeclares, hleft,
      hright => by
    rw [Stmt.Placed] at hleft
    rw [Stmt.move, Stmt.Placed, Option.isSome_map] at hright
    rw [Stmt.move, execute, execute]
    have hkept := hdeclares rfl
    refine (aligned_declareClass hm haround hkept hleft.1 hright.1 hleft.2 hright.2).bind ?_
    intro later _ _ _ _ hon _
    exact aligned_pure hon.like .normal

theorem aligned_executeAll : ∀ (steps : Nat) (body : List Stmt) {ι : Nat → Nat} {w : Pairing}
    {m m' : Machine} {L R : List Scope}, MachineLike c w m m' → w.Around m.current L R →
    w.Kept m.current m'.current → PlacedStatements c.left (fun _ => True) L body →
    PlacedStatements c.right (fun _ => True) R (moveStatements (.ofIds ι) body) →
    Aligned c w (executeAll steps body) (executeAll steps (moveStatements (.ofIds ι) body)) m m'
      (FlowLike c)
  | 0, _, _, _, _, _, _, _, hm, _, _, _, _ => aligned_exhausted hm
  | steps + 1, [], ι, w, m, m', L, R, hm, _, _, _, _ => by
    rw [moveStatements, executeAll]
    exact aligned_pure hm .normal
  | steps + 1, s :: rest, ι, w, m, m', L, R, hm, haround, hkept, hleft, hright => by
    rw [PlacedStatements] at hleft
    rw [moveStatements, PlacedStatements] at hright
    rw [moveStatements, executeAll, executeAll]
    refine (aligned_execute steps s hm haround (fun _ => hkept) hleft.1 hright.1).bind ?_
    intro later flow flow' after after' hon hflow
    cases hflow with
    | returned hvalue => exact aligned_pure hon.like (.returned hvalue)
    | normal =>
      have hkept' := hon.kept hkept
      have haround' := (hon.around haround).scopesAfter (s := s) (fun _ => hkept') (.ofIds ι)
      exact aligned_executeAll steps rest hon.like haround' hkept' hleft.2 hright.2

theorem aligned_evaluateOptional : ∀ (steps : Nat) (value : Option Expr) {ι : Nat → Nat}
    {w : Pairing} {m m' : Machine} {L R : List Scope}, MachineLike c w m m' →
    w.Around m.current L R → (∀ e, value = some e → e.Placed c.left L) →
    (∀ e, value.map (Expr.move (.ofIds ι)) = some e → e.Placed c.right R) →
    Aligned c w (evaluateOptional steps value)
      (evaluateOptional steps (value.map (Expr.move (.ofIds ι)))) m m' (ValueLike c)
  | 0, _, _, _, _, _, _, _, hm, _, _, _ => aligned_exhausted hm
  | steps + 1, none, ι, w, m, m', L, R, hm, _, _, _ => by
    rw [Option.map_none, evaluateOptional]
    exact aligned_pure hm .nil
  | steps + 1, some value, ι, w, m, m', L, R, hm, haround, hleft, hright => by
    rw [Option.map_some, evaluateOptional, evaluateOptional]
    exact aligned_evaluate steps value hm haround (hleft value rfl) (hright _ rfl)

theorem aligned_evaluate : ∀ (steps : Nat) (e : Expr) {ι : Nat → Nat} {w : Pairing}
    {m m' : Machine} {L R : List Scope}, MachineLike c w m m' → w.Around m.current L R →
    e.Placed c.left L → (e.move (.ofIds ι)).Placed c.right R →
    Aligned c w (evaluate steps e) (evaluate steps (e.move (.ofIds ι))) m m' (ValueLike c)
  | 0, _, _, _, _, _, _, _, hm, _, _, _ => aligned_exhausted hm
  | steps + 1, .literal value, ι, w, m, m', L, R, hm, _, _, _ => by
    rw [Expr.move, evaluate]
    refine aligned_pure hm ?_
    cases value with
    | number value => exact .number value
    | string value => exact .string value
    | true => exact .bool Bool.true
    | false => exact .bool Bool.false
    | nil => exact .nil
  | steps + 1, .grouping inner, ι, w, m, m', L, R, hm, haround, hleft, hright => by
    rw [Expr.move, evaluate, evaluate]
    exact aligned_evaluate steps inner hm haround hleft hright
  | steps + 1, .unary op line operand, ι, w, m, m', L, R, hm, haround, hleft, hright => by
    rw [Expr.move, evaluate, evaluate]
    refine (aligned_evaluate steps operand hm haround hleft hright).bind ?_
    intro later value value' _ _ hon hvalue
    rw [hvalue.unary op]
    exact aligned_orFault hon.like _ fun _ h => .of_plain (UnaryOp.plain_of_apply h)
  | steps + 1, .binary op line left right, ι, w, m, m', L, R, hm, haround, hleft, hright => by
    rw [Expr.move, evaluate, evaluate]
    refine (aligned_evaluate steps left hm haround hleft.1 hright.1).bind ?_
    intro later a a' after after' hon ha
    refine (aligned_evaluate steps right hon.like (hon.around haround) hleft.2 hright.2).bind ?_
    intro last b b' _ _ hlast hb
    rw [(ha.mono hlast.world).binary op hb]
    exact aligned_orFault hlast.like _ fun _ h => .of_plain (BinaryOp.plain_of_apply h)
  | steps + 1, .logical op line left right, ι, w, m, m', L, R, hm, haround, hleft, hright => by
    rw [Expr.move, evaluate, evaluate]
    refine (aligned_evaluate steps left hm haround hleft.1 hright.1).bind ?_
    intro later a a' after after' hon ha
    rw [ha.decides op]
    split
    · exact aligned_pure hon.like ha
    · exact aligned_evaluate steps right hon.like (hon.around haround) hleft.2 hright.2
  | steps + 1, .variable name id, ι, w, m, m', L, R, hm, haround, hleft, hright => by
    rw [Expr.move, evaluate, evaluate]
    exact aligned_read hm haround hleft hright
  | steps + 1, .assign name id value, ι, w, m, m', L, R, hm, haround, hleft, hright => by
    rw [Expr.move, evaluate, evaluate]
    refine (aligned_evaluate steps value hm haround hleft.1 hright.1).bind ?_
    intro later result result' after after' hon hresult
    refine (aligned_assign hon.like (hon.around haround) hleft.2 hright.2 hresult).bind ?_
    intro last _ _ _ _ hlast _
    exact aligned_pure hlast.like (hresult.mono hlast.world)
  | steps + 1, .call callee line args, ι, w, m, m', L, R, hm, haround, hleft, hright => by
    rw [Expr.move, evaluate, evaluate]
    refine (aligned_evaluate steps callee hm haround hleft.1 hright.1).bind ?_
    intro later f f' after after' hon hf
    refine (aligned_evaluateAll steps args hon.like (hon.around haround) hleft.2 hright.2).bind ?_
    intro last values values' _ _ hlast hvalues
    exact aligned_call steps line hlast.like (hf.mono hlast.world) hvalues
  | steps + 1, .get object name, ι, w, m, m', L, R, hm, haround, hleft, hright => by
    rw [Expr.move, evaluate, evaluate]
    refine (aligned_evaluate steps object hm haround hleft hright).bind ?_
    intro later value value' _ _ hon hvalue
    cases hvalue with
    | «instance» ho => exact aligned_property hon.like ho name
    | _ => exact aligned_fault hon.like _ _
  | steps + 1, .set object name value, ι, w, m, m', L, R, hm, haround, hleft, hright => by
    rw [Expr.move, evaluate, evaluate]
    refine (aligned_evaluate steps object hm haround hleft.1 hright.1).bind ?_
    intro later o o' after after' hon ho
    cases ho with
    | «instance» ho =>
      refine (aligned_evaluate steps value hon.like (hon.around haround) hleft.2 hright.2).bind ?_
      intro last result result' _ _ hlast hresult
      refine (aligned_setField hlast.like (ho.mono hlast.world) name.text hresult).bind ?_
      intro final _ _ _ _ hfinal _
      exact aligned_pure hfinal.like (hresult.mono hfinal.world)
    | _ => exact aligned_fault hon.like _ _
  | steps + 1, .this line id, ι, w, m, m', L, R, hm, haround, hleft, hright => by
    rw [Expr.move, evaluate, evaluate]
    exact aligned_read hm haround hleft hright
  | steps + 1, .super line id method, ι, w, m, m', L, R, hm, haround, hleft, hright => by
    rw [Expr.move, evaluate, evaluate]
    exact aligned_superMethod hm haround line hleft hright method

theorem aligned_evaluateAll : ∀ (steps : Nat) (args : List Expr) {ι : Nat → Nat} {w : Pairing}
    {m m' : Machine} {L R : List Scope}, MachineLike c w m m' → w.Around m.current L R →
    PlacedArguments c.left L args →
    PlacedArguments c.right R (moveArguments (.ofIds ι) args) →
    Aligned c w (evaluateAll steps args) (evaluateAll steps (moveArguments (.ofIds ι) args)) m m'
      fun later => List.Forall₂ (ValueLike c later)
  | 0, _, _, _, _, _, _, _, hm, _, _, _ => aligned_exhausted hm
  | steps + 1, [], ι, w, m, m', L, R, hm, _, _, _ => by
    rw [moveArguments, evaluateAll]
    exact aligned_pure hm .nil
  | steps + 1, e :: rest, ι, w, m, m', L, R, hm, haround, hleft, hright => by
    rw [moveArguments, evaluateAll, evaluateAll]
    refine (aligned_evaluate steps e hm haround hleft.1 hright.1).bind ?_
    intro later value value' after after' hon hvalue
    refine (aligned_evaluateAll steps rest hon.like (hon.around haround) hleft.2 hright.2).bind ?_
    intro last values values' _ _ hlast hvalues
    exact aligned_pure hlast.like (.cons (hvalue.mono hlast.world) hvalues)

theorem aligned_call : ∀ (steps : Nat) {callee callee' : Value} (line : Nat)
    {args args' : List Value} {w : Pairing} {m m' : Machine}, MachineLike c w m m' →
    ValueLike c w callee callee' → List.Forall₂ (ValueLike c w) args args' →
    Aligned c w (call steps callee line args) (call steps callee' line args') m m' (ValueLike c)
  | 0, _, _, _, _, _, _, _, _, hm, _, _ => aligned_exhausted hm
  | steps + 1, callee, callee', line, args, args', w, m, m', hm, hcallee, hargs => by
    unfold call
    rw [hcallee.arity?, hcallee.text, ← hargs.length_eq]
    rcases harity : callee.arity? with _ | arity
    · exact aligned_fault hm _ _
    · by_cases hlength : args.length = arity
      · simp only [hlength, ne_eq, not_true_eq_false, if_false]
        cases hcallee with
        | native f =>
          cases f
          exact aligned_clock hm
        | function hf => exact aligned_invoke steps hm hf hargs
        | «class» hk => exact aligned_instantiate steps hm hk hargs
        | _ => exact aligned_fault hm _ _
      · simp only [hlength, ne_eq, not_false_eq_true, if_true]
        exact aligned_fault hm _ _

theorem aligned_invoke : ∀ (steps : Nat) {f f' : Closure} {args args' : List Value} {w : Pairing}
    {m m' : Machine}, MachineLike c w m m' → ClosureLike c w f f' →
    List.Forall₂ (ValueLike c w) args args' →
    Aligned c w (invoke steps f args) (invoke steps f' args') m m' (ValueLike c)
  | 0, _, _, _, _, _, _, _, hm, _, _ => aligned_exhausted hm
  | steps + 1, ⟨declaration, frame, isInitializer⟩, ⟨declaration', frame', isInitializer'⟩, args,
      args', w, m, m', hm, hclosure, hargs => by
    obtain ⟨hkept, hinit, L, R, haround, ⟨ι, hmoved⟩, hleft, hright⟩ := hclosure
    obtain ⟨name, params, body⟩ := declaration
    dsimp only at hkept hinit haround hmoved hleft hright
    subst hinit hmoved
    rw [FunctionDecl.Placed] at hleft
    rw [FunctionDecl.move, FunctionDecl.Placed, names_move_ofIds] at hright
    rw [FunctionDecl.move, names_move_ofIds, invoke, invoke]
    refine (aligned_child hm hkept.stands).bind ?_
    rintro w₁ inner inner' m₁ m₁' hon₁ ⟨hinner, haround₁⟩
    have hargs₁ := hargs.imp fun _ _ => ValueLike.mono hon₁.world
    refine (aligned_bindParams params hargs₁ hon₁.like hinner).bind ?_
    intro w₂ _ _ m₂ m₂' hon₂ _
    have hinner₂ := hinner.mono hon₂.world
    have haround₂ := (haround₁ haround (paramScope params)).mono hon₂.world
    have hbody := aligned_executeAll steps body (enter_aligned hon₂.like hinner₂.stands) haround₂
      hinner₂ hleft.2 hright.2
    refine (aligned_within hon₂.like hbody).bind ?_
    intro w₃ flow flow' m₃ m₃' hon₃ hflow
    split
    · have hkept₃ := hkept.mono ((hon₁.world.trans hon₂.world).trans hon₃.world)
      exact aligned_within hon₃.like
        (aligned_readIn (enter_aligned hon₃.like hkept₃.stands) rfl rfl hkept₃ "this")
    · cases hflow with
      | returned hvalue => exact aligned_pure hon₃.like hvalue
      | normal => exact aligned_pure hon₃.like .nil

theorem aligned_instantiate : ∀ (steps : Nat) {k k' : ClassValue} {args args' : List Value}
    {w : Pairing} {m m' : Machine}, MachineLike c w m m' → ClassLike c w k k' →
    List.Forall₂ (ValueLike c w) args args' →
    Aligned c w (instantiate steps k args) (instantiate steps k' args') m m' (ValueLike c)
  | 0, _, _, _, _, _, _, _, hm, _, _ => aligned_exhausted hm
  | steps + 1, k, k', args, args', w, m, m', hm, hk, hargs => by
    have hmethod := hk.initializer?
    rw [instantiate, instantiate]
    refine (aligned_newInstance hm hk).bind fun w₁ o o' m₁ m₁' hon₁ ho => ?_
    generalize k.initializer? = initializer at hmethod ⊢
    generalize k'.initializer? = initializer' at hmethod ⊢
    cases hmethod with
    | none => exact aligned_pure hon₁.like (.instance ho)
    | some hmethod =>
      refine (aligned_bindMethod hon₁.like (hmethod.mono hon₁.world) ho).bind ?_
      intro w₂ f f' m₂ m₂' hon₂ hf
      have hargs₂ := hargs.imp fun _ _ => ValueLike.mono (hon₁.world.trans hon₂.world)
      refine (aligned_invoke steps hon₂.like hf hargs₂).bind ?_
      intro w₃ _ _ m₃ m₃' hon₃ _
      exact aligned_pure hon₃.like (.instance ((ho.mono hon₂.world).mono hon₃.world))

end

end Evaluation

end Run

end Treewalk
