import Treewalk.Proofs.Binding.Distinctness
import Treewalk.Proofs.Binding.Settling

/-!
# What a walk without errors has checked

**In a program without binding errors every `return` stands in a function, none with a value in an
initializer, and no function has two parameters of one name.**  The walk knows the innermost function
around a place from the surroundings that it hands down.  They change at every function and method
and nowhere else, so that a `return` is judged by the function that it leaves, however many blocks,
loops and branches lie between.
-/

namespace Treewalk

/-! ### The judgement -/

/-- May a `return` with this value stand in this function? -/
def MayReturn (inFunction : FunctionContext) (value : Option Expr) : Prop :=
  inFunction ≠ .none ∧ (inFunction = .initializer → value = none)

mutual

/-- The returns of a statement fit the function around it, and so do those of the functions in it,
    whose parameters are different. -/
def Stmt.Checked (inFunction : FunctionContext) : Stmt → Prop
  | .expression _ => True
  | .print _ => True
  | .var _ _ => True
  | .block body => CheckedStatements inFunction body
  | .ifElse _ thenBranch none => thenBranch.Checked inFunction
  | .ifElse _ thenBranch (some elseBranch) =>
    thenBranch.Checked inFunction ∧ elseBranch.Checked inFunction
  | .whileLoop _ body => body.Checked inFunction
  | .function declaration => declaration.Checked .function
  | .return _ value => MayReturn inFunction value
  | .class _ _ methods => CheckedMethods methods

/-- The parameters of a function are different, and the returns of its body fit it. -/
def FunctionDecl.Checked (inFunction : FunctionContext) : FunctionDecl → Prop
  | ⟨_, params, body⟩ => (params.map Name.text).Nodup ∧ CheckedStatements inFunction body

/-- All statements are checked. -/
def CheckedStatements (inFunction : FunctionContext) : List Stmt → Prop
  | [] => True
  | statement :: rest => statement.Checked inFunction ∧ CheckedStatements inFunction rest

/-- All methods are checked, each as a method or as an initializer. -/
def CheckedMethods : List FunctionDecl → Prop
  | [] => True
  | method :: rest => method.Checked method.methodContext ∧ CheckedMethods rest

end

theorem CheckedStatements.of_mem {inFunction : FunctionContext} {statement : Stmt} :
    ∀ {body : List Stmt}, CheckedStatements inFunction body → statement ∈ body →
      statement.Checked inFunction
  | first :: rest, h, hmem => by
    rw [CheckedStatements] at h
    rcases List.mem_cons.mp hmem with rfl | hrest
    · exact h.1
    · exact h.2.of_mem hrest

theorem CheckedMethods.of_mem {method : FunctionDecl} :
    ∀ {methods : List FunctionDecl}, CheckedMethods methods → method ∈ methods →
      method.Checked method.methodContext
  | first :: rest, h, hmem => by
    rw [CheckedMethods] at h
    rcases List.mem_cons.mp hmem with rfl | hrest
    · exact h.1
    · exact h.2.of_mem hrest

/-! ### Walks -/

/-- Parameters that are declared without an error are different, and new in their scope. -/
theorem nodup_of_parameters : ∀ (params : List Name) {b : Bindings} {scope : Scope}
    {outer : List Scope}, b.scopes = scope :: outer → (b.parameters params).errors = [] →
    (params.map Name.text).Nodup ∧ ∀ param ∈ params, param.text ∉ scope
  | [], _, _, _, _, _ => ⟨List.nodup_nil, fun _ h => nomatch h⟩
  | param :: params, b, scope, outer, hb, h => by
    have hrest := Bindings.extends_parameters .topLevel ((b.declare param).define param) params
    have hdefine := Bindings.extends_define .topLevel (b.declare param) param
    have hnew := not_mem_of_declare hb (hdefine.errors_eq_nil (hrest.errors_eq_nil h))
    have hscopes : ((b.declare param).define param).scopes
        = scope.insert param.text .defined :: outer := by
      rw [Bindings.scopes_define, Bindings.scopes_declare, putName_putName, hb, putName_cons]
    obtain ⟨hnodup, hothers⟩ := nodup_of_parameters params hscopes h
    have hne : ∀ other ∈ params, other.text ≠ param.text := fun other hother heq =>
      hothers other hother (by rw [heq]; exact Std.ExtTreeMap.mem_insert_self)
    refine ⟨?_, fun other hother => ?_⟩
    · rw [List.map_cons, List.nodup_cons]
      refine ⟨fun hmem => ?_, hnodup⟩
      obtain ⟨other, hother, heq⟩ := List.mem_map.mp hmem
      exact hne other hother heq
    · rcases List.mem_cons.mp hother with rfl | hother
      · exact hnew
      · exact fun hmem => hothers other hother ((mem_putScope (hne other hother)).mpr hmem)

/-- A `return` that is walked without an error may stand where it does. -/
theorem mayReturn_of_checkReturn {around : Surroundings} {line : Nat} {value : Option Expr}
    {b : Bindings} (h : (b.checkReturn around line value.isSome).errors = []) :
    MayReturn around.inFunction value := by
  unfold Bindings.checkReturn at h
  have hvalue := noteIf_errors_eq_nil h
  have hplace := noteIf_errors_eq_nil ((Bindings.extends_noteIf around _ _ _ _).errors_eq_nil h)
  refine ⟨by simpa using hplace, fun hinit => ?_⟩
  cases value with
  | none => rfl
  | some value => simp [hinit] at hvalue

mutual

theorem Stmt.checked_of_bindNames (around : Surroundings) : ∀ (s : Stmt) {b : Bindings},
    (s.bindNames around b).errors = [] → s.Checked around.inFunction
  | .expression _, _, _ => trivial
  | .print _, _, _ => trivial
  | .var _ _, _, _ => by rw [Stmt.Checked]; trivial
  | .block body, b, h => by
    rw [Stmt.bindNames] at h
    rw [Stmt.Checked]
    exact checked_of_bindStatements around body h
  | .ifElse condition thenBranch none, b, h => by
    rw [Stmt.bindNames] at h
    rw [Stmt.Checked]
    exact thenBranch.checked_of_bindNames around h
  | .ifElse condition thenBranch (some elseBranch), b, h => by
    rw [Stmt.bindNames] at h
    rw [Stmt.Checked]
    have helse := elseBranch.extends_bindNames around
      (thenBranch.bindNames around (condition.bindNames around b))
    exact ⟨thenBranch.checked_of_bindNames around (helse.errors_eq_nil h),
      elseBranch.checked_of_bindNames around h⟩
  | .whileLoop condition body, b, h => by
    rw [Stmt.bindNames] at h
    rw [Stmt.Checked]
    exact body.checked_of_bindNames around h
  | .function declaration, b, h => by
    rw [Stmt.bindNames] at h
    rw [Stmt.Checked]
    exact declaration.checked_of_bindNames { around with inFunction := .function } h
  | .return line value, b, h => by
    rw [Stmt.bindNames] at h
    rw [Stmt.Checked]
    exact mayReturn_of_checkReturn ((extends_bindOptional around value _).errors_eq_nil h)
  | .class name superclass methods, b, h => by
    obtain ⟨inner, start, hmethods⟩ := methods_of_bindNames h
    rw [Stmt.Checked]
    exact checked_of_bindMethods inner methods hmethods

theorem FunctionDecl.checked_of_bindNames (around : Surroundings) : ∀ (f : FunctionDecl)
    {b : Bindings}, (f.bindNames around b).errors = [] → f.Checked around.inFunction
  | ⟨name, params, body⟩, b, h => by
    rw [FunctionDecl.bindNames] at h
    rw [FunctionDecl.Checked]
    have hbody := extends_bindStatements around body (b.enter.parameters params)
    have hentered : b.enter.scopes = ∅ :: b.scopes := Bindings.scopes_enter b
    refine ⟨?_, checked_of_bindStatements around body h⟩
    exact (nodup_of_parameters params hentered (hbody.errors_eq_nil h)).1

theorem checked_of_bindStatements (around : Surroundings) : ∀ (body : List Stmt) {b : Bindings},
    (bindStatements around body b).errors = [] → CheckedStatements around.inFunction body
  | [], _, _ => by rw [CheckedStatements]; trivial
  | s :: rest, b, h => by
    rw [bindStatements] at h
    rw [CheckedStatements]
    have hrest := extends_bindStatements around rest (s.bindNames around b)
    exact ⟨s.checked_of_bindNames around (hrest.errors_eq_nil h),
      checked_of_bindStatements around rest h⟩

theorem checked_of_bindMethods (around : Surroundings) : ∀ (methods : List FunctionDecl)
    {b : Bindings}, (bindMethods around methods b).errors = [] → CheckedMethods methods
  | [], _, _ => by rw [CheckedMethods]; trivial
  | method :: rest, b, h => by
    rw [bindMethods] at h
    rw [CheckedMethods]
    have hrest := extends_bindMethods around rest
      (method.bindNames { around with inFunction := method.methodContext } b)
    exact ⟨method.checked_of_bindNames { around with inFunction := method.methodContext }
      (hrest.errors_eq_nil h), checked_of_bindMethods around rest h⟩

end

/-- At the top level of a program without binding errors no `return` may stand. -/
theorem Program.checked {program : Program} (h : (Program.bindings program).errors = []) :
    CheckedStatements .none program :=
  checked_of_bindStatements .topLevel program h

/-! ### Methods of a program -/

mutual

/-- The methods that are declared anywhere in a statement. -/
def Stmt.declaredMethods : Stmt → List FunctionDecl
  | .expression _ => []
  | .print _ => []
  | .var _ _ => []
  | .block body => statementMethods body
  | .ifElse _ thenBranch none => thenBranch.declaredMethods
  | .ifElse _ thenBranch (some elseBranch) =>
    thenBranch.declaredMethods ++ elseBranch.declaredMethods
  | .whileLoop _ body => body.declaredMethods
  | .function declaration => declaration.declaredMethods
  | .return _ _ => []
  | .class _ _ methods => methods ++ innerMethods methods

/-- The methods that are declared in the body of a function. -/
def FunctionDecl.declaredMethods : FunctionDecl → List FunctionDecl
  | ⟨_, _, body⟩ => statementMethods body

/-- The methods that are declared anywhere in a list of statements. -/
def statementMethods : List Stmt → List FunctionDecl
  | [] => []
  | statement :: rest => statement.declaredMethods ++ statementMethods rest

/-- The methods that are declared in the bodies of methods. -/
def innerMethods : List FunctionDecl → List FunctionDecl
  | [] => []
  | method :: rest => method.declaredMethods ++ innerMethods rest

end

mutual

theorem Stmt.Checked.declaredMethods {inFunction : FunctionContext} : ∀ {s : Stmt},
    s.Checked inFunction → ∀ method ∈ s.declaredMethods, method.Checked method.methodContext
  | .expression _, _, _, hmem => nomatch hmem
  | .print _, _, _, hmem => nomatch hmem
  | .var _ _, _, _, hmem => by rw [Stmt.declaredMethods] at hmem; cases hmem
  | .block body, h, method, hmem => by
    rw [Stmt.Checked] at h
    rw [Stmt.declaredMethods] at hmem
    exact h.statementMethods method hmem
  | .ifElse _ thenBranch none, h, method, hmem => by
    rw [Stmt.Checked] at h
    rw [Stmt.declaredMethods] at hmem
    exact h.declaredMethods method hmem
  | .ifElse _ thenBranch (some elseBranch), h, method, hmem => by
    rw [Stmt.Checked] at h
    rw [Stmt.declaredMethods] at hmem
    rcases List.mem_append.mp hmem with hmem | hmem
    · exact h.1.declaredMethods method hmem
    · exact h.2.declaredMethods method hmem
  | .whileLoop _ body, h, method, hmem => by
    rw [Stmt.Checked] at h
    rw [Stmt.declaredMethods] at hmem
    exact h.declaredMethods method hmem
  | .function declaration, h, method, hmem => by
    rw [Stmt.Checked] at h
    rw [Stmt.declaredMethods] at hmem
    exact h.declaredMethods method hmem
  | .return _ _, _, _, hmem => by rw [Stmt.declaredMethods] at hmem; cases hmem
  | .class _ _ methods, h, method, hmem => by
    rw [Stmt.Checked] at h
    rw [Stmt.declaredMethods] at hmem
    rcases List.mem_append.mp hmem with hmem | hmem
    · exact h.of_mem hmem
    · exact h.innerMethods method hmem

theorem FunctionDecl.Checked.declaredMethods {inFunction : FunctionContext} : ∀ {f : FunctionDecl},
    f.Checked inFunction → ∀ method ∈ f.declaredMethods, method.Checked method.methodContext
  | ⟨_, _, body⟩, h, method, hmem => by
    rw [FunctionDecl.Checked] at h
    rw [FunctionDecl.declaredMethods] at hmem
    exact h.2.statementMethods method hmem

theorem CheckedStatements.statementMethods {inFunction : FunctionContext} : ∀ {body : List Stmt},
    CheckedStatements inFunction body →
      ∀ method ∈ Treewalk.statementMethods body, method.Checked method.methodContext
  | [], _, _, hmem => by rw [Treewalk.statementMethods] at hmem; cases hmem
  | s :: rest, h, method, hmem => by
    rw [CheckedStatements] at h
    rw [Treewalk.statementMethods] at hmem
    rcases List.mem_append.mp hmem with hmem | hmem
    · exact h.1.declaredMethods method hmem
    · exact h.2.statementMethods method hmem

theorem CheckedMethods.innerMethods : ∀ {methods : List FunctionDecl}, CheckedMethods methods →
    ∀ method ∈ Treewalk.innerMethods methods, method.Checked method.methodContext
  | [], _, _, hmem => by rw [Treewalk.innerMethods] at hmem; cases hmem
  | f :: rest, h, method, hmem => by
    rw [CheckedMethods] at h
    rw [Treewalk.innerMethods] at hmem
    rcases List.mem_append.mp hmem with hmem | hmem
    · exact h.1.declaredMethods method hmem
    · exact h.2.innerMethods method hmem

end

end Treewalk
