import Treewalk.Binding
import Treewalk.Proofs.Syntax.References

/-!
# What a walk changes

**A walk over a tree leaves the scopes as they were, up to the name that the tree declares, and
finds something only about the references in the tree.**  So the findings about different parts
of a program do not get in each other's way, as long as no number is given twice.
-/

namespace Treewalk

/-! ### Scopes -/

/-- The scopes with a name put into the innermost one. -/
def putName (text : String) (standing : Standing) : List Scope → List Scope
  | [] => []
  | scope :: outer => scope.insert text standing :: outer

@[simp]
theorem putName_cons (text : String) (standing : Standing) (scope : Scope) (outer : List Scope) :
    putName text standing (scope :: outer) = scope.insert text standing :: outer :=
  rfl

theorem putName_putName (text : String) (first last : Standing) (scopes : List Scope) :
    putName text last (putName text first scopes) = putName text last scopes := by
  rcases scopes with _ | ⟨scope, outer⟩
  · rfl
  · refine congrArg (· :: outer) (Std.ExtTreeMap.ext_getElem? fun k => ?_)
    simp only [Std.ExtTreeMap.getElem?_insert]
    split <;> rfl

/-- The scope of a function with these parameters, at the start of its body. -/
def paramScope (params : List Name) : Scope :=
  params.foldl (fun scope param => scope.insert param.text .defined) ∅

/-- The scope around the methods of a class. -/
def thisScope : Scope :=
  (∅ : Scope).insert "this" .defined

/-- The scope around that, if the class has a superclass. -/
def superScope : Scope :=
  (∅ : Scope).insert "super" .defined

/-- The scopes around the methods of a class. -/
def methodScopes (derived : Bool) (scopes : List Scope) : List Scope :=
  thisScope :: if derived then superScope :: scopes else scopes

/-- The name that a statement declares, if it is a declaration. -/
def Stmt.declaredName : Stmt → Option String
  | .var name _ => some name.text
  | .function declaration => some declaration.name.text
  | .class name _ _ => some name.text
  | _ => none

theorem Stmt.declaredName_eq_none {s : Stmt} (h : s.isDeclaration = false) :
    s.declaredName = none := by
  cases s <;> first | rfl | cases h

/-- The scopes behind a statement. -/
def Stmt.scopesAfter (s : Stmt) (scopes : List Scope) : List Scope :=
  match s.declaredName with
  | some text => putName text .defined scopes
  | none => scopes

theorem Stmt.scopesAfter_of_plain {s : Stmt} (h : s.isDeclaration = false) (scopes : List Scope) :
    s.scopesAfter scopes = scopes := by
  rw [Stmt.scopesAfter, Stmt.declaredName_eq_none h]

/-- The scopes behind a list of statements. -/
def scopesAfterAll (body : List Stmt) (scopes : List Scope) : List Scope :=
  body.foldl (fun scopes s => s.scopesAfter scopes) scopes

theorem scopesAfter_nil (s : Stmt) : s.scopesAfter [] = [] := by
  unfold Stmt.scopesAfter
  split <;> rfl

theorem scopesAfterAll_nil (body : List Stmt) : scopesAfterAll body [] = [] := by
  induction body with
  | nil => rfl
  | cons s rest ih =>
    rw [scopesAfterAll, List.foldl_cons, scopesAfter_nil]
    exact ih

theorem tail_scopesAfter (s : Stmt) (scopes : List Scope) :
    (s.scopesAfter scopes).tail = scopes.tail := by
  unfold Stmt.scopesAfter
  rcases s.declaredName with _ | text
  · rfl
  · rcases scopes with _ | ⟨scope, outer⟩ <;> rfl

theorem tail_scopesAfterAll (body : List Stmt) (scopes : List Scope) :
    (scopesAfterAll body scopes).tail = scopes.tail := by
  induction body generalizing scopes with
  | nil => rfl
  | cons s rest ih =>
    exact (ih (s.scopesAfter scopes)).trans (tail_scopesAfter s scopes)

namespace Bindings

variable (b : Bindings)

@[simp]
theorem scopes_note (site : Name) (fault : BindingFault) : (b.note site fault).scopes = b.scopes :=
  rfl

@[simp]
theorem scopes_noteIf (condition : Bool) (site : Name) (fault : BindingFault) :
    (b.noteIf condition site fault).scopes = b.scopes := by
  unfold noteIf
  split <;> rfl

@[simp]
theorem scopes_put (text : String) (standing : Standing) :
    (b.put text standing).scopes = putName text standing b.scopes := by
  unfold put putName
  split <;> simp_all

@[simp]
theorem scopes_enter : b.enter.scopes = ∅ :: b.scopes :=
  rfl

@[simp]
theorem scopes_leave : b.leave.scopes = b.scopes.tail :=
  rfl

@[simp]
theorem scopes_declare (name : Name) :
    (b.declare name).scopes = putName name.text .declared b.scopes := by
  simp [declare]

@[simp]
theorem scopes_define (name : Name) :
    (b.define name).scopes = putName name.text .defined b.scopes := by
  simp [define]

@[simp]
theorem scopes_refer (around : Surroundings) (id : Nat) (text : String) :
    (b.refer around id text).scopes = b.scopes := by
  unfold refer
  split <;> rfl

@[simp]
theorem scopes_read (around : Surroundings) (name : Name) (id : Nat) :
    (b.read around name id).scopes = b.scopes := by
  simp [read]

@[simp]
theorem scopes_checkSuper (around : Surroundings) (site : Name) :
    (b.checkSuper around site).scopes = b.scopes := by
  unfold checkSuper
  split <;> rfl

@[simp]
theorem scopes_checkReturn (around : Surroundings) (line : Nat) (hasValue : Bool) :
    (b.checkReturn around line hasValue).scopes = b.scopes := by
  simp [checkReturn]

theorem scopes_parameters (params : List Name) :
    (b.enter.parameters params).scopes = paramScope params :: b.scopes := by
  suffices h : ∀ (b : Bindings) (scope : Scope) (outer : List Scope), b.scopes = scope :: outer →
      (b.parameters params).scopes
        = params.foldl (fun scope param => scope.insert param.text .defined) scope :: outer from
    h b.enter ∅ b.scopes rfl
  induction params with
  | nil =>
    intro b scope outer h
    exact h
  | cons param params ih =>
    intro b scope outer h
    refine ih ((b.declare param).define param) _ outer ?_
    rw [scopes_define, scopes_declare, putName_putName, h]
    rfl

/-- The scopes behind the head of a class declaration. -/
theorem scopes_classHead (around : Surroundings) (name : Name) (superclass : Option Reference) :
    ((b.classHead around name superclass).enter.put "this" .defined).scopes
      = methodScopes superclass.isSome (putName name.text .defined b.scopes) := by
  rcases superclass with _ | superclass
  · simp [classHead, methodScopes, putName_putName, thisScope]
  · simp [classHead, methodScopes, putName_putName, thisScope, superScope]

end Bindings

mutual

@[simp]
theorem Expr.scopes_bindNames (around : Surroundings) : ∀ (e : Expr) (b : Bindings),
    (e.bindNames around b).scopes = b.scopes
  | .literal _, _ => rfl
  | .grouping inner, b => by rw [Expr.bindNames, inner.scopes_bindNames]
  | .unary _ _ operand, b => by rw [Expr.bindNames, operand.scopes_bindNames]
  | .binary _ _ left right, b => by
    rw [Expr.bindNames, right.scopes_bindNames, left.scopes_bindNames]
  | .logical _ _ left right, b => by
    rw [Expr.bindNames, right.scopes_bindNames, left.scopes_bindNames]
  | .variable name id, b => by rw [Expr.bindNames, Bindings.scopes_read]
  | .assign name id value, b => by
    rw [Expr.bindNames, Bindings.scopes_refer, value.scopes_bindNames]
  | .call callee _ args, b => by
    rw [Expr.bindNames, scopes_bindArguments, callee.scopes_bindNames]
  | .get object _, b => by rw [Expr.bindNames, object.scopes_bindNames]
  | .set object _ value, b => by
    rw [Expr.bindNames, value.scopes_bindNames, object.scopes_bindNames]
  | .this line id, b => by
    rw [Expr.bindNames, Bindings.scopes_refer, Bindings.scopes_noteIf]
  | .super line id _, b => by
    rw [Expr.bindNames, Bindings.scopes_refer, Bindings.scopes_checkSuper]

@[simp]
theorem scopes_bindArguments (around : Surroundings) : ∀ (args : List Expr) (b : Bindings),
    (bindArguments around args b).scopes = b.scopes
  | [], _ => rfl
  | argument :: args, b => by
    rw [bindArguments, scopes_bindArguments, argument.scopes_bindNames]

end

@[simp]
theorem scopes_bindOptional (around : Surroundings) (value : Option Expr) (b : Bindings) :
    (bindOptional around value b).scopes = b.scopes := by
  rcases value with _ | value
  · rfl
  · exact value.scopes_bindNames around b

/-- A method is a function, whatever is around it. -/
theorem FunctionDecl.inside_methodContext (f : FunctionDecl) {P : Prop} :
    f.methodContext = .none → P := by
  unfold FunctionDecl.methodContext
  split <;> exact fun h => by cases h

mutual

/-- A well-formed statement changes the scopes by the name that it declares. -/
theorem Stmt.scopes_bindNames (around : Surroundings) : ∀ (s : Stmt), s.WellFormed →
    ∀ b : Bindings, (s.bindNames around b).scopes = s.scopesAfter b.scopes
  | .expression value, _, b => by
    rw [Stmt.bindNames, value.scopes_bindNames]
    rfl
  | .print value, _, b => by
    rw [Stmt.bindNames, value.scopes_bindNames]
    rfl
  | .var name initializer, _, b => by
    rw [Stmt.bindNames, Bindings.scopes_define, scopes_bindOptional, Bindings.scopes_declare,
      putName_putName]
    rfl
  | .block body, h, b => by
    rw [Stmt.WellFormed] at h
    rw [Stmt.bindNames, Bindings.scopes_leave, scopes_bindStatements around body h,
      tail_scopesAfterAll]
    rfl
  | .ifElse condition thenBranch none, h, b => by
    rw [Stmt.WellFormed] at h
    rw [Stmt.bindNames, thenBranch.scopes_bindNames around h.2.1,
      Stmt.scopesAfter_of_plain h.2.2, condition.scopes_bindNames]
    rfl
  | .ifElse condition thenBranch (some elseBranch), h, b => by
    rw [Stmt.WellFormed] at h
    rw [Stmt.bindNames, elseBranch.scopes_bindNames around h.2.2.1,
      Stmt.scopesAfter_of_plain h.2.2.2, thenBranch.scopes_bindNames around h.2.1.1,
      Stmt.scopesAfter_of_plain h.2.1.2, condition.scopes_bindNames]
    rfl
  | .whileLoop condition body, h, b => by
    rw [Stmt.WellFormed] at h
    rw [Stmt.bindNames, body.scopes_bindNames around h.2.1, Stmt.scopesAfter_of_plain h.2.2,
      condition.scopes_bindNames]
    rfl
  | .function declaration, h, b => by
    rw [Stmt.WellFormed] at h
    rw [Stmt.bindNames, declaration.scopes_bindNames _ h, Bindings.scopes_define,
      Bindings.scopes_declare, putName_putName]
    rfl
  | .return line value, _, b => by
    rw [Stmt.bindNames, scopes_bindOptional, Bindings.scopes_checkReturn]
    rfl
  | .class name superclass methods, h, b => by
    rw [Stmt.WellFormed] at h
    rw [Stmt.bindNames]
    split
    · rename_i hsome
      rw [Bindings.scopes_leave, Bindings.scopes_leave, scopes_bindMethods _ methods h.2.2,
        Bindings.scopes_classHead, hsome]
      rfl
    · rename_i hnone
      rw [Bindings.scopes_leave, scopes_bindMethods _ methods h.2.2, Bindings.scopes_classHead,
        Bool.eq_false_iff.mpr hnone]
      rfl

theorem FunctionDecl.scopes_bindNames (around : Surroundings) : ∀ (f : FunctionDecl),
    f.WellFormed → ∀ b : Bindings, (f.bindNames around b).scopes = b.scopes
  | ⟨name, params, body⟩, h, b => by
    rw [FunctionDecl.WellFormed] at h
    rw [FunctionDecl.bindNames, Bindings.scopes_leave, scopes_bindStatements around body h.2.2,
      tail_scopesAfterAll, Bindings.scopes_parameters]
    rfl

theorem scopes_bindStatements (around : Surroundings) : ∀ (body : List Stmt),
    WellFormedStatements body → ∀ b : Bindings,
    (bindStatements around body b).scopes = scopesAfterAll body b.scopes
  | [], _, _ => rfl
  | s :: rest, h, b => by
    rw [WellFormedStatements] at h
    rw [bindStatements, scopes_bindStatements around rest h.2, s.scopes_bindNames around h.1]
    rfl

theorem scopes_bindMethods (around : Surroundings) : ∀ (methods : List FunctionDecl),
    WellFormedMethods methods → ∀ b : Bindings,
    (bindMethods around methods b).scopes = b.scopes
  | [], _, _ => rfl
  | method :: rest, h, b => by
    rw [WellFormedMethods] at h
    rw [bindMethods, scopes_bindMethods around rest h.2, method.scopes_bindNames _ h.1]

end

/-! ### Findings -/

/-- Findings are added, and only about these references; those outside functions are listed only
    by a walk outside functions. -/
structure Bindings.Extends (around : Surroundings) (ids : List Nat) (b later : Bindings) :
    Prop where
  hops : ∀ id ∉ ids, later.hops[id]? = b.hops[id]?
  topLevel : ∀ id ∈ later.topLevel, id ∈ b.topLevel ∨ (id ∈ ids ∧ around.inFunction = .none)
  errors : b.errors <+: later.errors

namespace Bindings.Extends

variable {around : Surroundings} {ids : List Nat} {b middle later : Bindings}

theorem of_same (hhops : later.hops = b.hops) (htop : later.topLevel = b.topLevel)
    (herrors : b.errors <+: later.errors) : Extends around ids b later where
  hops _ _ := by rw [hhops]
  topLevel id hid := Or.inl (htop ▸ hid)
  errors := herrors

theorem refl (around : Surroundings) (ids : List Nat) (b : Bindings) : Extends around ids b b :=
  of_same rfl rfl (List.prefix_refl _)

theorem trans {more : List Nat} (h : Extends around ids b middle)
    (hlater : Extends around more middle later) : Extends around (ids ++ more) b later where
  hops id hid := by
    rw [List.mem_append, not_or] at hid
    rw [hlater.hops id hid.2, h.hops id hid.1]
  topLevel id hid := by
    rcases hlater.topLevel id hid with hmiddle | ⟨hmore, hnone⟩
    · rcases h.topLevel id hmiddle with hb | ⟨hids, hnone⟩
      · exact Or.inl hb
      · exact Or.inr ⟨List.mem_append_left _ hids, hnone⟩
    · exact Or.inr ⟨List.mem_append_right _ hmore, hnone⟩
  errors := h.errors.trans hlater.errors

/-- Nothing is found in the second part of a walk. -/
theorem trans_refl (h : Extends around ids b middle) (hlater : Extends around [] middle later) :
    Extends around ids b later := by
  simpa using h.trans hlater

theorem refl_trans (h : Extends around [] b middle) (hlater : Extends around ids middle later) :
    Extends around ids b later :=
  h.trans hlater

/-- A walk inside something that is outside functions may be seen from there. -/
theorem outward {inner : Surroundings} (h : Extends inner ids b later)
    (houtside : inner.inFunction = .none → around.inFunction = .none) :
    Extends around ids b later where
  hops := h.hops
  topLevel id hid := (h.topLevel id hid).imp_right fun h => ⟨h.1, houtside h.2⟩
  errors := h.errors

/-- Inside functions no reference is listed. -/
theorem topLevel_subset (h : Extends around ids b later) (hinside : around.inFunction ≠ .none) :
    later.topLevel ⊆ b.topLevel := fun id hid =>
  (h.topLevel id hid).resolve_right fun hout => hinside hout.2

/-- A walk that ends without errors started without errors. -/
theorem errors_eq_nil (h : Extends around ids b later) (hlater : later.errors = []) :
    b.errors = [] :=
  List.prefix_nil.mp (hlater ▸ h.errors)

end Bindings.Extends

namespace Bindings

variable (around : Surroundings) (b : Bindings)

theorem extends_noteIf (condition : Bool) (site : Name) (fault : BindingFault) :
    Extends around [] b (b.noteIf condition site fault) := by
  unfold noteIf
  split
  · exact .of_same rfl rfl (List.prefix_append _ _)
  · exact .refl _ _ _

theorem extends_enter : Extends around [] b b.enter :=
  .of_same rfl rfl (List.prefix_refl _)

theorem extends_leave : Extends around [] b b.leave :=
  .of_same rfl rfl (List.prefix_refl _)

theorem extends_put (text : String) (standing : Standing) :
    Extends around [] b (b.put text standing) := by
  unfold put
  split
  · exact .refl _ _ _
  · exact .of_same rfl rfl (List.prefix_refl _)

theorem extends_declare (name : Name) : Extends around [] b (b.declare name) :=
  (b.extends_put around _ _).trans (extends_noteIf around _ _ _ _)

theorem extends_define (name : Name) : Extends around [] b (b.define name) :=
  b.extends_put around _ _

theorem extends_refer (id : Nat) (text : String) :
    Extends around [id] b (b.refer around id text) := by
  unfold refer
  split
  · exact .refl _ _ _
  · refine ⟨fun other hother => ?_, fun other hother => ?_, List.prefix_refl _⟩
    · have hne : id ≠ other := fun heq => hother (heq ▸ List.mem_singleton_self id)
      simp [Std.ExtTreeMap.getElem?_insert, hne]
    · dsimp only at hother
      split at hother
      · rename_i hnone
        rcases List.mem_append.mp hother with hb | hid
        · exact Or.inl hb
        · exact Or.inr ⟨hid, hnone⟩
      · exact Or.inl hother

theorem extends_read (name : Name) (id : Nat) : Extends around [id] b (b.read around name id) :=
  (b.extends_noteIf around _ _ _).refl_trans (extends_refer around _ _ _)

theorem extends_checkSuper (site : Name) : Extends around [] b (b.checkSuper around site) := by
  unfold checkSuper
  split
  · exact .of_same rfl rfl (List.prefix_append _ _)
  · exact .of_same rfl rfl (List.prefix_append _ _)
  · exact .refl _ _ _

theorem extends_checkReturn (line : Nat) (hasValue : Bool) :
    Extends around [] b (b.checkReturn around line hasValue) :=
  (b.extends_noteIf around _ _ _).trans (extends_noteIf around _ _ _ _)

theorem extends_parameters (params : List Name) : Extends around [] b (b.parameters params) := by
  induction params generalizing b with
  | nil => exact .refl _ _ _
  | cons param params ih =>
    exact ((b.extends_declare around param).trans (extends_define around _ param)).trans (ih _)

theorem extends_classHead (name : Name) (superclass : Option Reference) :
    Extends around (superclassReferences superclass) b (b.classHead around name superclass) := by
  have hname := (b.extends_declare around name).trans (extends_define around _ name)
  rcases superclass with _ | superclass
  · exact hname
  · have hread := hname.refl_trans ((extends_noteIf around _
      (superclass.name.text == name.text) superclass.name .selfInheritance).refl_trans
      (extends_read around _ superclass.name superclass.id))
    exact (hread.trans_refl (extends_enter around _)).trans_refl
      (extends_put around _ "super" .defined)

end Bindings

open Bindings

mutual

theorem Expr.extends_bindNames (around : Surroundings) : ∀ (e : Expr) (b : Bindings),
    b.Extends around e.references (e.bindNames around b)
  | .literal _, _ => .refl _ _ _
  | .grouping inner, b => inner.extends_bindNames around b
  | .unary _ _ operand, b => operand.extends_bindNames around b
  | .binary _ _ left right, b =>
    (left.extends_bindNames around b).trans (right.extends_bindNames around _)
  | .logical _ _ left right, b =>
    (left.extends_bindNames around b).trans (right.extends_bindNames around _)
  | .variable name id, b => b.extends_read around name id
  | .assign name id value, b =>
    (value.extends_bindNames around b).trans (extends_refer around _ id name.text)
  | .call callee _ args, b =>
    (callee.extends_bindNames around b).trans (extends_bindArguments around args _)
  | .get object _, b => object.extends_bindNames around b
  | .set object _ value, b =>
    (object.extends_bindNames around b).trans (value.extends_bindNames around _)
  | .this _ id, b => (b.extends_noteIf around _ _ _).refl_trans (extends_refer around _ id _)
  | .super _ id _, b => (b.extends_checkSuper around _).refl_trans (extends_refer around _ id _)

theorem extends_bindArguments (around : Surroundings) : ∀ (args : List Expr) (b : Bindings),
    b.Extends around (argumentReferences args) (bindArguments around args b)
  | [], _ => .refl _ _ _
  | argument :: args, b =>
    (argument.extends_bindNames around b).trans (extends_bindArguments around args _)

end

theorem extends_bindOptional (around : Surroundings) (value : Option Expr) (b : Bindings) :
    b.Extends around (optionalReferences value) (bindOptional around value b) := by
  rcases value with _ | value
  · exact .refl _ _ _
  · exact value.extends_bindNames around b

mutual

theorem Stmt.extends_bindNames (around : Surroundings) : ∀ (s : Stmt) (b : Bindings),
    b.Extends around s.references (s.bindNames around b)
  | .expression value, b => value.extends_bindNames around b
  | .print value, b => value.extends_bindNames around b
  | .var name initializer, b =>
    ((b.extends_declare around name).refl_trans
      (extends_bindOptional around initializer _)).trans_refl (extends_define around _ name)
  | .block body, b =>
    ((b.extends_enter around).refl_trans (extends_bindStatements around body _)).trans_refl
      (extends_leave around _)
  | .ifElse condition thenBranch none, b =>
    (condition.extends_bindNames around b).trans (thenBranch.extends_bindNames around _)
  | .ifElse condition thenBranch (some elseBranch), b =>
    (condition.extends_bindNames around b).trans
      ((thenBranch.extends_bindNames around _).trans (elseBranch.extends_bindNames around _))
  | .whileLoop condition body, b =>
    (condition.extends_bindNames around b).trans (body.extends_bindNames around _)
  | .function declaration, b =>
    ((b.extends_declare around _).trans (extends_define around _ _)).refl_trans
      ((declaration.extends_bindNames _ _).outward fun h => by cases h)
  | .return line value, b =>
    (b.extends_checkReturn around line _).refl_trans (extends_bindOptional around value _)
  | .class name superclass methods, b => by
    rw [Stmt.bindNames]
    generalize (if superclass.isSome then ClassContext.derived else .plain) = kind
    have hhead : b.Extends around _ (b.classHead { around with inClass := kind } name superclass) :=
      (b.extends_classHead _ name superclass).outward id
    have hthis := (hhead.trans_refl (extends_enter around _)).trans_refl
      (extends_put around _ "this" .defined)
    have hclosed := (hthis.trans
      ((extends_bindMethods { around with inClass := kind } methods _).outward id)).trans_refl
      (extends_leave around _)
    split
    · exact hclosed.trans_refl (extends_leave around _)
    · exact hclosed

theorem FunctionDecl.extends_bindNames (around : Surroundings) : ∀ (f : FunctionDecl)
    (b : Bindings), b.Extends around f.references (f.bindNames around b)
  | ⟨_, params, body⟩, b =>
    (((b.extends_enter around).trans (extends_parameters around _ params)).refl_trans
      (extends_bindStatements around body _)).trans_refl (extends_leave around _)

theorem extends_bindStatements (around : Surroundings) : ∀ (body : List Stmt) (b : Bindings),
    b.Extends around (statementReferences body) (bindStatements around body b)
  | [], _ => .refl _ _ _
  | s :: rest, b => (s.extends_bindNames around b).trans (extends_bindStatements around rest _)

theorem extends_bindMethods (around : Surroundings) : ∀ (methods : List FunctionDecl)
    (b : Bindings), b.Extends around (methodReferences methods) (bindMethods around methods b)
  | [], _ => .refl _ _ _
  | method :: rest, b =>
    ((method.extends_bindNames _ b).outward method.inside_methodContext).trans
      (extends_bindMethods around rest _)

end

/-! ### Whole sources -/

/-- All findings are about references with numbers of a range. -/
structure Bindings.Within (first last : Nat) (b : Bindings) : Prop where
  before : ∀ id < first, b.hops[id]? = none
  after : ∀ id, last ≤ id → b.hops[id]? = none
  topLevel : ∀ id ∈ b.topLevel, first ≤ id ∧ id < last

theorem Bindings.Extends.within {around : Surroundings} {ids : List Nat} {later : Bindings}
    (h : Bindings.empty.Extends around ids later) {first last : Nat}
    (hids : Numbered first last ids) : later.Within first last := by
  have hnone : ∀ id, id ∉ ids → later.hops[id]? = none := by
    intro id hid
    rw [h.hops id hid]
    simp [Bindings.empty]
  refine ⟨fun id hlt => hnone id fun hmem => ?_, fun id hle => hnone id fun hmem => ?_, ?_⟩
  · exact absurd (hids.ge id hmem) (Nat.not_le_of_lt hlt)
  · exact absurd (hids.lt id hmem) (Nat.not_lt_of_le hle)
  · intro id hid
    rcases h.topLevel id hid with hempty | ⟨hmem, -⟩
    · simp [Bindings.empty] at hempty
    · exact ⟨hids.ge id hmem, hids.lt id hmem⟩

theorem Program.within_bindings {program : Program} {first last : Nat}
    (h : Numbered first last (statementReferences program)) :
    (Program.bindings program).Within first last :=
  (extends_bindStatements .topLevel program .empty).within h

theorem Expr.within_bindings {e : Expr} {first last : Nat} (h : Numbered first last e.references) :
    e.bindings.Within first last :=
  (e.extends_bindNames .topLevel .empty).within h

end Treewalk
