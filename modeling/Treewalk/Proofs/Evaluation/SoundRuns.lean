import Treewalk.Proofs.Evaluation.Soundness
import Treewalk.Proofs.Evaluation.Entering

/-!
# Placed code runs without a breach

**A part of a program that is placed in scopes, and runs in frames that fit them, keeps the
machine sound and never breaks an invariant.**  The induction is on the number of steps: every
part runs with fewer steps than the whole, and so does the body of a function that is called.
-/

namespace Treewalk

theorem Store.Fits.after {s : Store} {f : FrameId} {scopes : List Scope}
    (h : s.Fits f scopes) {later : Machine} (hlater : s.Grows later.store ∧ later.current = f) :
    later.store.Fits later.current scopes := by
  rw [hlater.2]
  exact h.mono hlater.1

/-- A number, a string or a truth value. -/
def Value.Plain : Value → Prop
  | .number _ | .string _ | .bool _ => True
  | _ => False

/-- Operators give no functions. -/
theorem UnaryOp.plain_of_apply {op : UnaryOp} {operand result : Value}
    (h : op.apply operand = .ok result) : result.Plain := by
  unfold UnaryOp.apply at h
  split at h <;> cases h <;> trivial

theorem BinaryOp.plain_of_apply {op : BinaryOp} {left right result : Value}
    (h : op.apply left right = .ok result) : result.Plain := by
  have harithmetic : ∀ operation, BinaryOp.arithmetic operation left right = .ok result →
      result.Plain := by
    intro operation h
    unfold BinaryOp.arithmetic at h
    split at h <;> cases h
    trivial
  have hcomparison : ∀ holds, BinaryOp.comparison holds left right = .ok result →
      result.Plain := by
    intro holds h
    unfold BinaryOp.comparison at h
    split at h <;> cases h
    trivial
  unfold BinaryOp.apply at h
  split at h
  · unfold BinaryOp.sum at h
    split at h <;> cases h <;> trivial
  · exact harithmetic _ h
  · exact harithmetic _ h
  · exact harithmetic _ h
  · exact hcomparison _ h
  · exact hcomparison _ h
  · exact hcomparison _ h
  · exact hcomparison _ h
  · cases h
    trivial
  · cases h
    trivial

theorem Value.Plain.sound {table : HopTable} {kept : Nat → Prop} {s : Store} {value : Value}
    (h : value.Plain) : value.Sound table kept s := by
  cases value <;> trivial

theorem FunctionDecl.Placed.body {table : HopTable} {kept : Nat → Prop} {scopes : List Scope}
    {f : FunctionDecl} (h : f.Placed table kept scopes) :
    PlacedStatements table kept (paramScope f.params :: scopes) f.body := by
  obtain ⟨name, params, body⟩ := f
  rw [FunctionDecl.Placed] at h
  exact h.2

namespace Run

variable {table : HopTable} {kept : Nat → Prop} {m : Machine} {scopes : List Scope}

/-! ### Frames -/

/-- After parameters are bound, their frame fits the scope that holds them. -/
theorem sound_bindParams {frame : FrameId} : ∀ {params : List Name}
    {args : List Value} {m : Machine} {scope : Scope}, m.Sound table kept →
    (∀ value ∈ args, value.Sound table kept m.store) → args.length = params.length →
    m.store.Fits frame (scope :: scopes) →
    Keeps (sound table kept) (bindParams frame params args) m fun _ after =>
      after.store.Fits frame
        (params.foldl (fun scope param => scope.insert param.text .defined) scope :: scopes)
  | [], [], m, scope, hm, _, _, hfits => keeps_pure hm hfits
  | param :: params, argument :: args, m, scope, hm, hargs, hlength, hfits => by
    rw [bindParams]
    have hargument := hargs argument List.mem_cons_self
    refine (sound_define hm frame param.text (hargument.mono (.define _ _ _ _))).bind ?_
    intro _ after hafter hlater hstore
    apply sound_bindParams hafter
    · intro value hvalue
      exact (hargs value (List.mem_cons_of_mem _ hvalue)).mono hlater.1
    · simpa using hlength
    · refine Store.Fits.putDefined (hfits.mono hlater.1) ?_
      rw [hstore, Store.local?_define_self (hfits.lt_size hm.size)]
      rfl

theorem sound_blockFrame (hm : m.Sound table kept) (hfits : m.store.Fits m.current scopes) :
    Keeps (sound table kept) blockFrame m fun frame after =>
      after.store.Fits frame (∅ :: scopes) := by
  unfold blockFrame
  refine (sound_currentFrame hm).bind ?_
  rintro _ m - - ⟨rfl, rfl⟩
  refine (sound_child hm m.current).imp ?_
  rintro frame after - ⟨rfl, hstore⟩
  rw [hstore]
  exact hfits.child hm.size

theorem sound_callFrame (hm : m.Sound table kept) {f : Closure} {args : List Value}
    (hfits : m.store.Fits f.frame scopes) (hargs : ∀ value ∈ args, value.Sound table kept m.store)
    (hlength : args.length = f.arity) :
    Keeps (sound table kept) (callFrame f args) m fun frame after =>
      after.store.Fits frame (paramScope f.declaration.params :: scopes) := by
  unfold callFrame
  refine (sound_child hm f.frame).bind ?_
  rintro _ m₁ hm₁ hlater₁ ⟨rfl, hstore⟩
  have hfits₁ : m₁.store.Fits (m.store.child f.frame).1 (∅ :: scopes) := by
    rw [hstore]
    exact hfits.child hm.size
  have hargs₁ : ∀ value ∈ args, value.Sound table kept m₁.store := fun value hvalue =>
    (hargs value hvalue).mono hlater₁.1
  refine (sound_bindParams hm₁ hargs₁ hlength hfits₁).bind fun _ m₂ hm₂ _ hfits₂ => ?_
  exact keeps_pure hm₂ hfits₂

/-! ### Declarations -/

theorem sound_declareFunction (hm : m.Sound table kept) (hfits : m.store.Fits m.current scopes)
    {declaration : FunctionDecl}
    (hplaced : declaration.Placed table kept (putName declaration.name.text .defined scopes)) :
    Keeps (sound table kept) (declareFunction declaration) m fun _ after =>
      after.store.Fits after.current (putName declaration.name.text .defined scopes) := by
  unfold declareFunction
  refine (sound_currentFrame hm).bind ?_
  rintro _ m - - ⟨rfl, rfl⟩
  unfold functionValue
  simp only [bind_assoc, pure_bind]
  refine (sound_freshIdentity hm).bind fun identity middle hmiddle hlater hstore => ?_
  have hfits' : (middle.store.define m.current declaration.name.text
      (.function identity ⟨declaration, m.current, false⟩)).Fits m.current
        (putName declaration.name.text .defined scopes) := by
    rw [hstore]
    refine Store.Fits.putDefined (hfits.mono (.define _ _ _ _)) ?_
    rw [Store.local?_define_self (hfits.lt_size hm.size)]
    rfl
  have hvalue : (Value.function identity ⟨declaration, m.current, false⟩).Sound table kept
      (middle.store.define m.current declaration.name.text
        (.function identity ⟨declaration, m.current, false⟩)) :=
    ⟨_, hfits', hplaced, fun h => by cases h⟩
  refine (sound_define hmiddle m.current declaration.name.text hvalue).imp ?_
  intro _ after hlater' hafter
  rw [hafter, hlater'.2, hlater.2]
  exact hfits'

theorem exists_of_methodTable {frame : FrameId} {methods : List FunctionDecl} {name : String}
    {method : Closure} (h : (methodTable frame methods)[name]? = some method) :
    ∃ declaration ∈ methods, declaration.name.text = name
      ∧ method = ⟨declaration, frame, declaration.isInitializer⟩ := by
  suffices hfold : ∀ (before : Std.ExtTreeMap String Closure),
      (methods.foldl (fun table declaration => table.insert declaration.name.text
        ⟨declaration, frame, declaration.isInitializer⟩) before)[name]? = some method →
      before[name]? = some method ∨ ∃ declaration ∈ methods, declaration.name.text = name
        ∧ method = ⟨declaration, frame, declaration.isInitializer⟩ by
    rcases hfold ∅ h with hnone | hfound
    · simp at hnone
    · exact hfound
  clear h
  induction methods with
  | nil => exact fun before h => Or.inl h
  | cons declaration methods ih =>
    intro before h
    rcases ih _ h with hinsert | ⟨found, hmem, hfound⟩
    · rw [Std.ExtTreeMap.getElem?_insert] at hinsert
      split at hinsert
      · rename_i heq
        have hname : declaration.name.text = name := by simpa using heq
        exact Or.inr ⟨declaration, List.mem_cons_self, hname, (Option.some.inj hinsert).symm⟩
      · exact Or.inl hinsert
    · exact Or.inr ⟨found, List.mem_cons_of_mem _ hmem, hfound⟩

theorem sound_superclassOf (hm : m.Sound table kept) (hfits : m.store.Fits m.current scopes)
    {name : Name} {superclass : Option Reference}
    (hplaced : SuperclassPlaced table scopes name superclass) :
    Keeps (sound table kept) (superclassOf superclass) m fun parent after =>
      parent.isSome = superclass.isSome
        ∧ ∀ c, parent = some c → c.Sound table kept after.store := by
  rcases superclass with _ | superclass
  · exact keeps_pure hm ⟨rfl, fun c h => by cases h⟩
  · unfold superclassOf
    refine (sound_read hm hfits (hplaced superclass rfl).2).bind ?_
    intro value after hafter _ hvalue
    cases value with
    | «class» c =>
      apply keeps_pure hafter
      refine ⟨rfl, fun found h => ?_⟩
      cases h
      exact hvalue
    | _ => exact sound_fault hafter _ _

/-- The frame in which methods are declared fits the scopes around them, without that of
    `this`. -/
theorem sound_methodFrame (hm : m.Sound table kept) {frame : FrameId}
    (hfits : m.store.Fits frame scopes) {parent : Option ClassValue}
    (hparent : ∀ c, parent = some c → c.Sound table kept m.store) :
    Keeps (sound table kept) (methodFrame frame parent) m fun inner after =>
      after.store.Fits inner (if parent.isSome then superScope :: scopes else scopes) := by
  rcases parent with _ | c
  · exact keeps_pure hm hfits
  · unfold methodFrame
    refine (sound_child hm frame).bind ?_
    rintro inner middle hmiddle hlater ⟨rfl, hstore⟩
    have hc : (Value.class c).Sound table kept middle.store := (hparent c rfl).mono hlater.1
    refine (sound_define hmiddle _ "super" (hc.mono (.define _ _ _ _))).bind ?_
    intro _ after hafter hgrows hdefined
    apply keeps_pure hafter
    have hinner : middle.store.Fits (m.store.child frame).1 (∅ :: scopes) := by
      rw [hstore]
      exact hfits.child hm.size
    refine Store.Fits.putDefined (hinner.mono hgrows.1) ?_
    rw [hdefined, Store.local?_define_self (hinner.lt_size hmiddle.size)]
    rfl

theorem sound_newClass (hm : m.Sound table kept) (name : String) {parent : Option ClassValue}
    {methods : Std.ExtTreeMap String Closure}
    (hparent : ∀ c, parent = some c → c.Sound table kept m.store)
    (hmethods : ∀ (name : String) (method : Closure), methods[name]? = some method →
      method.SoundMethod table kept m.store) :
    Keeps (sound table kept) (newClass name parent methods) m fun c after =>
      c.Sound table kept after.store ∧ after.store = m.store := by
  unfold newClass
  refine (sound_freshIdentity hm).bind fun identity after hafter _ hstore => ?_
  rcases parent with _ | parent
  · refine keeps_pure hafter ⟨?_, hstore⟩
    intro layer hlayer other method hmethod
    rw [hstore]
    rcases List.mem_singleton.mp hlayer with rfl
    exact hmethods other method hmethod
  · refine keeps_pure hafter ⟨?_, hstore⟩
    intro layer hlayer other method hmethod
    rw [hstore]
    rcases List.mem_cons.mp hlayer with rfl | hlayer
    · exact hmethods other method hmethod
    · exact hparent parent rfl layer hlayer other method hmethod

/-- A class is declared with its name bound in the current frame.  Its methods are placed in the
    scopes of the class. -/
theorem sound_declareClass (hm : m.Sound table kept) (hfits : m.store.Fits m.current scopes)
    {name : Name} {superclass : Option Reference} {methods : List FunctionDecl}
    (hsuperclass : SuperclassPlaced table scopes name superclass)
    (hmethods : PlacedMethods table kept
      (methodScopes superclass.isSome (putName name.text .defined scopes)) methods) :
    Keeps (sound table kept) (declareClass name superclass methods) m fun _ after =>
      after.store.Fits after.current (putName name.text .defined scopes) := by
  unfold declareClass
  refine (sound_superclassOf hm hfits hsuperclass).bind ?_
  rintro parent m₁ hm₁ hlater₁ ⟨hsome, hparent⟩
  refine (sound_currentFrame hm₁).bind ?_
  rintro _ m₁ - - ⟨rfl, rfl⟩
  have hfits₁ : m₁.store.Fits m₁.current scopes := by
    rw [hlater₁.2]
    exact hfits.mono hlater₁.1
  have hnil : Value.nil.Sound table kept (m₁.store.define m₁.current name.text .nil) := trivial
  refine (sound_define hm₁ m₁.current name.text hnil).bind fun _ m₂ hm₂ hlater₂ hstore => ?_
  have hfits₂ : m₂.store.Fits m₁.current (putName name.text .defined scopes) := by
    refine Store.Fits.putDefined (hfits₁.mono hlater₂.1) ?_
    rw [hstore, Store.local?_define_self (hfits₁.lt_size hm₁.size)]
    rfl
  have hparent₂ := fun c h => (hparent c h).mono hlater₂.1
  refine (sound_methodFrame hm₂ hfits₂ hparent₂).bind fun inner m₃ hm₃ hlater₃ hinner => ?_
  have hparent₃ := fun c h => (hparent₂ c h).mono hlater₃.1
  have hmethods₃ : ∀ (other : String) (method : Closure),
      (methodTable inner methods)[other]? = some method →
      method.SoundMethod table kept m₃.store := by
    intro other method hmethod
    obtain ⟨declaration, hmem, -, rfl⟩ := exists_of_methodTable hmethod
    refine ⟨_, hinner, ?_⟩
    rw [hsome]
    exact hmethods.of_mem hmem
  refine (sound_newClass hm₃ name.text hparent₃ hmethods₃).bind ?_
  rintro c m₄ hm₄ hlater₄ ⟨hc, -⟩
  have hvalue : (Value.class c).Sound table kept m₄.store := hc
  refine (sound_assignFrom hm₄ m₁.current name hvalue).imp fun _ m₅ hlater₅ _ => ?_
  rw [hlater₅.2, hlater₄.2, hlater₃.2, hlater₂.2]
  exact ((hfits₂.mono hlater₃.1).mono hlater₄.1).mono hlater₅.1

/-! ### Statements and expressions -/

mutual

/-- A statement leaves the frames fitting the scopes behind it, unless it returns. -/
theorem sound_execute : ∀ (steps : Nat) (s : Stmt) {m : Machine} {scopes : List Scope},
    m.Sound table kept → m.store.Fits m.current scopes → s.Placed table kept scopes →
    Keeps (sound table kept) (execute steps s) m fun flow after =>
      flow.Sound table kept after.store
        ∧ after.store.Fits after.current scopes
        ∧ (flow = .normal → after.store.Fits after.current (s.scopesAfter scopes))
  | 0, _, _, _, hm, _, _ => sound_exhausted hm
  | steps + 1, .expression value, m, scopes, hm, hfits, hplaced => by
    rw [execute]
    refine (sound_evaluate steps value hm hfits hplaced).bind fun _ after hafter hlater _ => ?_
    have hfits' := hfits.after hlater
    exact keeps_pure hafter ⟨trivial, hfits', fun _ => hfits'⟩
  | steps + 1, .print value, m, scopes, hm, hfits, hplaced => by
    rw [execute]
    refine (sound_evaluate steps value hm hfits hplaced).bind fun result middle hmiddle hlater _ => ?_
    refine (sound_write hmiddle _).bind fun _ after hafter hlater' _ => ?_
    have hfits' := (hfits.after hlater).after hlater'
    exact keeps_pure hafter ⟨trivial, hfits', fun _ => hfits'⟩
  | steps + 1, .var name initializer, m, scopes, hm, hfits, hplaced => by
    rw [execute]
    rw [Stmt.Placed] at hplaced
    refine (sound_evaluateOptional steps initializer hm (hfits.putDeclared name.text)
      hplaced).bind fun value middle hmiddle hlater hvalue => ?_
    refine (sound_currentFrame hmiddle).bind ?_
    rintro _ middle - - ⟨rfl, rfl⟩
    have hfits' := hfits.after hlater
    refine (sound_define hmiddle middle.current name.text (hvalue.mono (.define _ _ _ _))).bind ?_
    intro _ after hafter hlater' hstore
    refine keeps_pure hafter ⟨trivial, hfits'.after hlater', fun _ => ?_⟩
    refine Store.Fits.putDefined (hfits'.after hlater') ?_
    rw [hstore, hlater'.2, Store.local?_define_self (hfits'.lt_size hmiddle.size)]
    rfl
  | steps + 1, .block body, m, scopes, hm, hfits, hplaced => by
    rw [execute, blockFrame_bind]
    rw [Stmt.Placed] at hplaced
    refine (sound_blockFrame hm hfits).bind fun frame middle hmiddle hlater hinner => ?_
    have hentered : Machine.Sound table kept { middle with current := frame } :=
      hmiddle.of_store_eq rfl rfl
    refine (sound_within (sound_executeAll steps body hentered hinner hplaced)).imp ?_
    rintro flow after hlater' ⟨inner, hflow, heq⟩
    have hfits' := (hfits.after hlater).after hlater'
    rw [← heq] at hfits' ⊢
    exact ⟨hflow, hfits', fun _ => hfits'⟩
  | steps + 1, .ifElse condition thenBranch none, m, scopes, hm, hfits, hplaced => by
    rw [execute]
    rw [Stmt.Placed] at hplaced
    refine (sound_evaluate steps condition hm hfits hplaced.1).bind ?_
    intro value middle hmiddle hlater _
    have hfits' := hfits.after hlater
    split
    · refine (sound_execute steps thenBranch hmiddle hfits' hplaced.2.1).imp ?_
      rintro flow after - ⟨hflow, hafter, -⟩
      exact ⟨hflow, hafter, fun _ => hafter⟩
    · exact keeps_pure hmiddle ⟨trivial, hfits', fun _ => hfits'⟩
  | steps + 1, .ifElse condition thenBranch (some elseBranch), m, scopes, hm, hfits, hplaced => by
    rw [execute]
    rw [Stmt.Placed] at hplaced
    refine (sound_evaluate steps condition hm hfits hplaced.1).bind ?_
    intro value middle hmiddle hlater _
    have hfits' := hfits.after hlater
    split
    · refine (sound_execute steps thenBranch hmiddle hfits' hplaced.2.1.1).imp ?_
      rintro flow after - ⟨hflow, hafter, -⟩
      exact ⟨hflow, hafter, fun _ => hafter⟩
    · refine (sound_execute steps elseBranch hmiddle hfits' hplaced.2.2.1).imp ?_
      rintro flow after - ⟨hflow, hafter, -⟩
      exact ⟨hflow, hafter, fun _ => hafter⟩
  | steps + 1, .whileLoop condition body, m, scopes, hm, hfits, hplaced => by
    rw [execute]
    have hloop := hplaced
    rw [Stmt.Placed] at hplaced
    refine (sound_evaluate steps condition hm hfits hplaced.1).bind ?_
    intro value middle hmiddle hlater _
    have hfits' := hfits.after hlater
    split
    · refine (sound_execute steps body hmiddle hfits' hplaced.2.1).bind ?_
      rintro flow after hafter - ⟨hflow, hfits'', -⟩
      cases flow with
      | returned value => exact keeps_pure hafter ⟨hflow, hfits'', fun _ => hfits''⟩
      | normal => exact sound_execute steps (.whileLoop condition body) hafter hfits'' hloop
    · exact keeps_pure hmiddle ⟨trivial, hfits', fun _ => hfits'⟩
  | steps + 1, .function declaration, m, scopes, hm, hfits, hplaced => by
    rw [execute]
    rw [Stmt.Placed] at hplaced
    refine (sound_declareFunction hm hfits hplaced).bind fun _ after hafter hlater hdeclared => ?_
    exact keeps_pure hafter ⟨trivial, hfits.after hlater, fun _ => hdeclared⟩
  | steps + 1, .return _ value, m, scopes, hm, hfits, hplaced => by
    rw [execute]
    rw [Stmt.Placed] at hplaced
    refine (sound_evaluateOptional steps value hm hfits hplaced).bind ?_
    intro result after hafter hlater hresult
    exact keeps_pure hafter ⟨hresult, hfits.after hlater, fun h => by cases h⟩
  | steps + 1, .class name superclass methods, m, scopes, hm, hfits, hplaced => by
    rw [execute]
    rw [Stmt.Placed] at hplaced
    refine (sound_declareClass hm hfits hplaced.1 hplaced.2).bind ?_
    intro _ after hafter hlater hdeclared
    exact keeps_pure hafter ⟨trivial, hfits.after hlater, fun _ => hdeclared⟩

theorem sound_executeAll : ∀ (steps : Nat) (body : List Stmt) {m : Machine} {scopes : List Scope},
    m.Sound table kept → m.store.Fits m.current scopes → PlacedStatements table kept scopes body →
    Keeps (sound table kept) (executeAll steps body) m fun flow after =>
      flow.Sound table kept after.store
  | 0, _, _, _, hm, _, _ => sound_exhausted hm
  | steps + 1, [], m, scopes, hm, _, _ => by
    rw [executeAll]
    exact keeps_pure hm trivial
  | steps + 1, s :: rest, m, scopes, hm, hfits, hplaced => by
    rw [executeAll]
    rw [PlacedStatements] at hplaced
    refine (sound_execute steps s hm hfits hplaced.1).bind ?_
    rintro flow after hafter - ⟨hflow, -, hfits'⟩
    cases flow with
    | returned value => exact keeps_pure hafter hflow
    | normal => exact sound_executeAll steps rest hafter (hfits' rfl) hplaced.2

theorem sound_evaluateOptional : ∀ (steps : Nat) (value : Option Expr) {m : Machine}
    {scopes : List Scope}, m.Sound table kept → m.store.Fits m.current scopes →
    (∀ result, value = some result → result.Placed table scopes) →
    Keeps (sound table kept) (evaluateOptional steps value) m fun result after =>
      result.Sound table kept after.store
  | 0, _, _, _, hm, _, _ => sound_exhausted hm
  | steps + 1, none, m, scopes, hm, _, _ => by
    rw [evaluateOptional]
    exact keeps_pure hm trivial
  | steps + 1, some value, m, scopes, hm, hfits, hplaced => by
    rw [evaluateOptional]
    exact sound_evaluate steps value hm hfits (hplaced value rfl)

theorem sound_evaluate : ∀ (steps : Nat) (e : Expr) {m : Machine} {scopes : List Scope},
    m.Sound table kept → m.store.Fits m.current scopes → e.Placed table scopes →
    Keeps (sound table kept) (evaluate steps e) m fun value after =>
      value.Sound table kept after.store
  | 0, _, _, _, hm, _, _ => sound_exhausted hm
  | steps + 1, .literal value, m, scopes, hm, _, _ => by
    rw [evaluate]
    exact keeps_pure hm (Literal.sound_value value)
  | steps + 1, .grouping inner, m, scopes, hm, hfits, hplaced => by
    rw [evaluate]
    exact sound_evaluate steps inner hm hfits hplaced
  | steps + 1, .unary op line operand, m, scopes, hm, hfits, hplaced => by
    rw [evaluate]
    refine (sound_evaluate steps operand hm hfits hplaced).bind fun value after hafter _ hvalue => ?_
    exact sound_orFault hafter _ fun result hresult => (UnaryOp.plain_of_apply hresult).sound
  | steps + 1, .binary op line left right, m, scopes, hm, hfits, hplaced => by
    rw [evaluate]
    rw [Expr.Placed] at hplaced
    refine (sound_evaluate steps left hm hfits hplaced.1).bind fun a middle hmiddle hlater _ => ?_
    refine (sound_evaluate steps right hmiddle (hfits.after hlater) hplaced.2).bind ?_
    intro b after hafter _ _
    exact sound_orFault hafter _ fun result hresult => (BinaryOp.plain_of_apply hresult).sound
  | steps + 1, .logical op _ left right, m, scopes, hm, hfits, hplaced => by
    rw [evaluate]
    rw [Expr.Placed] at hplaced
    refine (sound_evaluate steps left hm hfits hplaced.1).bind fun value after hafter hlater hvalue => ?_
    split
    · exact keeps_pure hafter hvalue
    · exact sound_evaluate steps right hafter (hfits.after hlater) hplaced.2
  | steps + 1, .variable name id, m, scopes, hm, hfits, hplaced => by
    rw [evaluate]
    exact sound_read hm hfits hplaced
  | steps + 1, .assign name id value, m, scopes, hm, hfits, hplaced => by
    rw [evaluate]
    rw [Expr.Placed] at hplaced
    refine (sound_evaluate steps value hm hfits hplaced.1).bind ?_
    intro result middle hmiddle hlater hresult
    refine (sound_assign hmiddle (hfits.after hlater) hplaced.2 hresult).bind ?_
    intro _ after hafter hlater' _
    exact keeps_pure hafter (hresult.mono hlater'.1)
  | steps + 1, .call callee line args, m, scopes, hm, hfits, hplaced => by
    rw [evaluate]
    rw [Expr.Placed] at hplaced
    refine (sound_evaluate steps callee hm hfits hplaced.1).bind ?_
    intro function middle hmiddle hlater hfunction
    refine (sound_evaluateAll steps args hmiddle (hfits.after hlater) hplaced.2).bind ?_
    intro values after hafter hlater' hvalues
    exact sound_call steps line hafter (hfunction.mono hlater'.1) hvalues
  | steps + 1, .get object name, m, scopes, hm, hfits, hplaced => by
    rw [evaluate]
    refine (sound_evaluate steps object hm hfits hplaced).bind fun value after hafter _ hvalue => ?_
    cases value with
    | «instance» o => exact sound_property hafter hvalue name
    | _ => exact sound_fault hafter _ _
  | steps + 1, .set object name value, m, scopes, hm, hfits, hplaced => by
    rw [evaluate]
    rw [Expr.Placed] at hplaced
    refine (sound_evaluate steps object hm hfits hplaced.1).bind ?_
    intro owner middle hmiddle hlater _
    cases owner with
    | «instance» o =>
      refine (sound_evaluate steps value hmiddle (hfits.after hlater) hplaced.2).bind ?_
      intro result after hafter _ hresult
      refine (sound_setField hafter o name.text hresult).bind fun _ last hlast hlater' _ => ?_
      exact keeps_pure hlast (hresult.mono hlater'.1)
    | _ => exact sound_fault hmiddle _ _
  | steps + 1, .this line id, m, scopes, hm, hfits, hplaced => by
    rw [evaluate]
    exact sound_read hm hfits hplaced
  | steps + 1, .super line id method, m, scopes, hm, hfits, hplaced => by
    rw [evaluate]
    exact sound_superMethod hm hfits hplaced line method

theorem sound_evaluateAll : ∀ (steps : Nat) (args : List Expr) {m : Machine} {scopes : List Scope},
    m.Sound table kept → m.store.Fits m.current scopes → PlacedArguments table scopes args →
    Keeps (sound table kept) (evaluateAll steps args) m fun values after =>
      ∀ value ∈ values, value.Sound table kept after.store
  | 0, _, _, _, hm, _, _ => sound_exhausted hm
  | steps + 1, [], m, scopes, hm, _, _ => by
    rw [evaluateAll]
    exact keeps_pure hm fun value h => by cases h
  | steps + 1, e :: rest, m, scopes, hm, hfits, hplaced => by
    rw [evaluateAll]
    rw [PlacedArguments] at hplaced
    refine (sound_evaluate steps e hm hfits hplaced.1).bind ?_
    intro first middle hmiddle hlater hfirst
    refine (sound_evaluateAll steps rest hmiddle (hfits.after hlater) hplaced.2).bind ?_
    intro values after hafter hlater' hvalues
    apply keeps_pure hafter
    intro value hvalue
    rcases List.mem_cons.mp hvalue with rfl | hvalue
    · exact hfirst.mono hlater'.1
    · exact hvalues value hvalue

/-- A call needs nothing of the frame that it is made in. -/
theorem sound_call : ∀ (steps : Nat) {callee : Value} (line : Nat) {args : List Value}
    {m : Machine}, m.Sound table kept → callee.Sound table kept m.store →
    (∀ value ∈ args, value.Sound table kept m.store) →
    Keeps (sound table kept) (call steps callee line args) m fun value after =>
      value.Sound table kept after.store
  | 0, _, _, _, _, hm, _, _ => sound_exhausted hm
  | steps + 1, callee, line, args, m, hm, hcallee, hargs => by
    unfold call
    rcases harity : callee.arity? with _ | arity
    · exact sound_fault hm _ _
    · by_cases hlength : args.length = arity
      · simp only [hlength, ne_eq, not_true_eq_false, if_false]
        subst hlength
        cases callee with
        | native function => exact sound_clock hm
        | function identity closure =>
          exact sound_invoke steps hm hcallee hargs (Option.some.inj harity).symm
        | «class» c => exact sound_instantiate steps hm hcallee hargs (Option.some.inj harity).symm
        | _ => exact sound_fault hm _ _
      · simp only [hlength, ne_eq, not_false_eq_true, if_true]
        exact sound_fault hm _ _

/-- The body of a function runs in a frame that fits its scope. -/
theorem sound_invoke : ∀ (steps : Nat) {f : Closure} {args : List Value} {m : Machine},
    m.Sound table kept → f.Sound table kept m.store →
    (∀ value ∈ args, value.Sound table kept m.store) → args.length = f.arity →
    Keeps (sound table kept) (invoke steps f args) m fun value after =>
      value.Sound table kept after.store
  | 0, _, _, _, hm, _, _, _ => sound_exhausted hm
  | steps + 1, f, args, m, hm, hf, hargs, hlength => by
    rw [invoke, callFrame_bind]
    obtain ⟨scopes, hfits, hplaced, hthis⟩ := hf
    refine (sound_callFrame hm hfits hargs hlength).bind fun frame m₁ hm₁ hlater₁ hfits₁ => ?_
    have hentered : Machine.Sound table kept { m₁ with current := frame } :=
      hm₁.of_store_eq rfl rfl
    refine (sound_within (sound_executeAll steps _ hentered hfits₁ hplaced.body)).bind ?_
    rintro flow m₂ hm₂ hlater₂ ⟨inner, hflow, heq⟩
    rw [heq] at hflow
    split
    · rename_i hinit
      have hback : Machine.Sound table kept { m₂ with current := f.frame } :=
        hm₂.of_store_eq rfl rfl
      have hfits₂ := (hfits.mono hlater₁.1).mono hlater₂.1
      refine (sound_within (sound_readAt hback hfits₂ (hthis hinit))).imp ?_
      rintro value m₃ - ⟨last, ⟨hvalue, -⟩, hlast⟩
      rw [← hlast]
      exact hvalue
    · cases flow with
      | returned value => exact keeps_pure hm₂ hflow
      | normal => exact keeps_pure hm₂ trivial

theorem sound_instantiate : ∀ (steps : Nat) {c : ClassValue} {args : List Value} {m : Machine},
    m.Sound table kept → c.Sound table kept m.store →
    (∀ value ∈ args, value.Sound table kept m.store) → args.length = c.arity →
    Keeps (sound table kept) (instantiate steps c args) m fun value after =>
      value.Sound table kept after.store
  | 0, _, _, _, hm, _, _, _ => sound_exhausted hm
  | steps + 1, c, args, m, hm, hc, hargs, hlength => by
    rw [instantiate]
    refine (sound_newInstance hm c).bind ?_
    rintro o m₁ hm₁ hlater₁ rfl
    have ho := hc.mono hlater₁.1
    rcases hinit : o.ofClass.initializer? with _ | initializer
    · exact keeps_pure hm₁ ho
    · have hmethod := ho.findMethod? hinit
      refine (sound_bindMethod hm₁ hmethod ho).bind ?_
      rintro f m₂ hm₂ hlater₂ ⟨hf, hdeclaration⟩
      have harity : args.length = f.arity := by
        rw [hlength, ClassValue.arity, hinit, Closure.arity, hdeclaration]
        rfl
      have hargs₂ : ∀ value ∈ args, value.Sound table kept m₂.store := fun value hvalue =>
        ((hargs value hvalue).mono hlater₁.1).mono hlater₂.1
      refine (sound_invoke steps hm₂ hf hargs₂ harity).bind fun _ m₃ hm₃ hlater₃ _ => ?_
      exact keeps_pure hm₃ ((ho.mono hlater₂.1).mono hlater₃.1)

end

/-! ### Programs -/

theorem sound_executeTop (steps : Nat) : ∀ {program : Program} {m : Machine},
    m.Sound table kept → m.store.Fits m.current [] → PlacedStatements table kept [] program →
    Keeps (sound table kept) (executeTop steps program) m fun _ _ => True
  | [], m, hm, _, _ => keeps_pure hm trivial
  | s :: rest, m, hm, hfits, hplaced => by
    rw [PlacedStatements, scopesAfter_nil] at hplaced
    rw [executeTop]
    refine (sound_execute steps s hm hfits hplaced.1).bind ?_
    rintro flow after hafter - ⟨-, hfits', -⟩
    exact sound_executeTop steps hafter hfits' hplaced.2

theorem sound_interpret (steps : Nat) {program : Program} (hm : m.Sound table kept)
    (hfits : m.store.Fits m.current []) (hplaced : PlacedStatements table kept [] program) :
    Keeps (sound table kept) (interpret steps program) m fun _ _ => True := by
  unfold interpret
  refine (sound_executeTop steps hm hfits hplaced).bind fun _ after hafter _ _ => ?_
  exact sound_flush hafter

end Run

end Treewalk
