import Treewalk.Proofs.Binding.Situation

/-!
# Programs are situated

**A program without static errors is situated at the top level, and each `super` in it stands in a class
with a superclass.**  The walk knows only of what kind the class around a place is; the class itself
is read off the source.  The two agree, and the walk reports every `super` that has no superclass.
-/

namespace Treewalk

open Bindings

/-! ### Places of `super` -/

/-- The kind of the class around a place fits the class that stands around it. -/
def AgreesWith (around : Surroundings) (within : Option ClassDecl) : Prop :=
  around.inClass = .derived →
    ∃ declaration, within = some declaration ∧ declaration.superclass.isSome = true

/-- Each `super` among these stands in a class with a superclass. -/
def SupersDerived (mentions : List Mention) : Prop :=
  ∀ within id, .super within id ∈ mentions →
    ∃ declaration, within = some declaration ∧ declaration.superclass.isSome = true

theorem supersDerived_nil : SupersDerived [] := fun _ _ h => by cases h

theorem SupersDerived.append {mentions others : List Mention} (h : SupersDerived mentions)
    (hothers : SupersDerived others) : SupersDerived (mentions ++ others) := by
  intro within id hmem
  rcases List.mem_append.mp hmem with hfirst | hsecond
  · exact h within id hfirst
  · exact hothers within id hsecond

theorem supersDerived_assign (initialized : Option String) (text : String) (id : Nat) :
    SupersDerived [.assign initialized text id] := by
  intro within other hmem
  cases List.mem_singleton.mp hmem

mutual

theorem Expr.supersDerived {around : Surroundings} {within : Option ClassDecl}
    (h : AgreesWith around within) (initialized : Option String) : ∀ (e : Expr) (b : Bindings),
    (e.bindNames around b).errors = [] → SupersDerived (e.mentions within initialized)
  | .literal _, _, _ => supersDerived_nil
  | .grouping inner, b, herr => inner.supersDerived h initialized b herr
  | .unary _ _ operand, b, herr => operand.supersDerived h initialized b herr
  | .binary _ _ left right, b, herr => by
    have hright := right.extends_bindNames around (left.bindNames around b)
    exact (left.supersDerived h initialized b (hright.errors_eq_nil herr)).append
      (right.supersDerived h initialized _ herr)
  | .logical _ _ left right, b, herr => by
    have hright := right.extends_bindNames around (left.bindNames around b)
    exact (left.supersDerived h initialized b (hright.errors_eq_nil herr)).append
      (right.supersDerived h initialized _ herr)
  | .variable _ _, _, _ => supersDerived_nil
  | .assign name id value, b, herr => by
    have hrefer := (value.bindNames around b).extends_refer around id name.text
    exact (value.supersDerived h initialized b (hrefer.errors_eq_nil herr)).append
      (supersDerived_assign _ _ _)
  | .call callee _ args, b, herr => by
    have hargs := extends_bindArguments around args (callee.bindNames around b)
    exact (callee.supersDerived h initialized b (hargs.errors_eq_nil herr)).append
      (argumentSupersDerived h initialized args _ herr)
  | .get object _, b, herr => object.supersDerived h initialized b herr
  | .set object _ value, b, herr => by
    have hvalue := value.extends_bindNames around (object.bindNames around b)
    exact (object.supersDerived h initialized b (hvalue.errors_eq_nil herr)).append
      (value.supersDerived h initialized _ herr)
  | .this _ _, _, _ => supersDerived_nil
  | .super line id _, b, herr => by
    rw [Expr.bindNames, refer_errors] at herr
    intro found other hmem
    cases List.mem_singleton.mp hmem
    exact h (checkSuper_errors_eq_nil herr)

theorem argumentSupersDerived {around : Surroundings} {within : Option ClassDecl}
    (h : AgreesWith around within) (initialized : Option String) : ∀ (args : List Expr)
    (b : Bindings), (bindArguments around args b).errors = [] →
    SupersDerived (argumentMentions within initialized args)
  | [], _, _ => supersDerived_nil
  | argument :: args, b, herr => by
    have hargs := extends_bindArguments around args (argument.bindNames around b)
    exact (argument.supersDerived h initialized b (hargs.errors_eq_nil herr)).append
      (argumentSupersDerived h initialized args _ herr)

end

theorem optionalSupersDerived {around : Surroundings} {within : Option ClassDecl}
    (h : AgreesWith around within) (initialized : Option String) (value : Option Expr)
    (b : Bindings) (herr : (bindOptional around value b).errors = []) :
    SupersDerived (optionalMentions within initialized value) := by
  rcases value with _ | value
  · exact supersDerived_nil
  · exact value.supersDerived h initialized b herr

mutual

theorem Stmt.supersDerived {around : Surroundings} {within : Option ClassDecl}
    (h : AgreesWith around within) : ∀ (s : Stmt) (b : Bindings),
    (s.bindNames around b).errors = [] → SupersDerived (s.mentions within)
  | .expression value, b, herr => value.supersDerived h none b herr
  | .print value, b, herr => value.supersDerived h none b herr
  | .var name initializer, b, herr => by
    have hdefine := (bindOptional around initializer (b.declare name)).extends_define around name
    exact optionalSupersDerived h _ initializer _ (hdefine.errors_eq_nil herr)
  | .block body, b, herr => by
    have hleave := (bindStatements around body b.enter).extends_leave around
    exact statementSupersDerived h body _ (hleave.errors_eq_nil herr)
  | .ifElse condition thenBranch none, b, herr => by
    have hthen := thenBranch.extends_bindNames around (condition.bindNames around b)
    exact (condition.supersDerived h none b (hthen.errors_eq_nil herr)).append
      (thenBranch.supersDerived h _ herr)
  | .ifElse condition thenBranch (some elseBranch), b, herr => by
    have hthen := thenBranch.extends_bindNames around (condition.bindNames around b)
    have helse := elseBranch.extends_bindNames around
      (thenBranch.bindNames around (condition.bindNames around b))
    exact (condition.supersDerived h none b ((hthen.trans helse).errors_eq_nil herr)).append
      ((thenBranch.supersDerived h _ (helse.errors_eq_nil herr)).append
        (elseBranch.supersDerived h _ herr))
  | .whileLoop condition body, b, herr => by
    have hbody := body.extends_bindNames around (condition.bindNames around b)
    exact (condition.supersDerived h none b (hbody.errors_eq_nil herr)).append
      (body.supersDerived h _ herr)
  | .function declaration, b, herr => by
    have hinside : AgreesWith { around with inFunction := .function } within := h
    exact declaration.supersDerived hinside _ herr
  | .return line value, b, herr => optionalSupersDerived h none value _ herr
  | .class name superclass methods, b, herr => by
    rw [Stmt.bindNames] at herr
    have hkind : AgreesWith
        { around with inClass := if superclass.isSome then ClassContext.derived else .plain }
        (some ⟨name, superclass, methods⟩) := by
      intro hderived
      refine ⟨_, rfl, ?_⟩
      rcases hsome : superclass.isSome with _ | _
      · simp [hsome] at hderived
      · rfl
    revert herr hkind
    generalize (if superclass.isSome then ClassContext.derived else .plain) = kind
    intro herr hkind
    refine methodSupersDerived hkind methods
      ((b.classHead { around with inClass := kind } name superclass).enter.put "this" .defined) ?_
    split at herr
    · exact ((extends_leave around _).trans (extends_leave around _)).errors_eq_nil herr
    · exact (extends_leave around _).errors_eq_nil herr

theorem FunctionDecl.supersDerived {around : Surroundings} {within : Option ClassDecl}
    (h : AgreesWith around within) : ∀ (f : FunctionDecl) (b : Bindings),
    (f.bindNames around b).errors = [] → SupersDerived (f.mentions within)
  | ⟨_, params, body⟩, b, herr => by
    have hleave := (bindStatements around body (b.enter.parameters params)).extends_leave around
    exact statementSupersDerived h body _ (hleave.errors_eq_nil herr)

theorem statementSupersDerived {around : Surroundings} {within : Option ClassDecl}
    (h : AgreesWith around within) : ∀ (body : List Stmt) (b : Bindings),
    (bindStatements around body b).errors = [] → SupersDerived (statementMentions within body)
  | [], _, _ => supersDerived_nil
  | s :: rest, b, herr => by
    have hrest := extends_bindStatements around rest (s.bindNames around b)
    exact (s.supersDerived h b (hrest.errors_eq_nil herr)).append
      (statementSupersDerived h rest _ herr)

theorem methodSupersDerived {around : Surroundings} {within : Option ClassDecl}
    (h : AgreesWith around within) : ∀ (methods : List FunctionDecl) (b : Bindings),
    (bindMethods around methods b).errors = [] → SupersDerived (methodMentions within methods)
  | [], _, _ => supersDerived_nil
  | method :: rest, b, herr => by
    rw [bindMethods] at herr
    have hrest := extends_bindMethods around rest
      (method.bindNames { around with inFunction := method.methodContext } b)
    have hinside : AgreesWith { around with inFunction := method.methodContext } within := h
    exact (method.supersDerived hinside b (hrest.errors_eq_nil herr)).append
      (methodSupersDerived h rest _ herr)

end

theorem Program.supersDerived {program : Program} (herr : (Program.bindings program).errors = []) :
    SupersDerived program.mentions :=
  statementSupersDerived (fun h => by cases h) program .empty herr

/-! ### Programs -/

/-- All names in a program are different. -/
theorem Program.fresh {program : Program} (h : program.declaredNames.Nodup) :
    Fresh [] (statementInnerNames program) where
  nodup := h.sublist (List.sublist_append_right _ _)
  unshared _ _ texts htexts := by cases htexts

/-- At the top level there are no scopes. -/
theorem Program.situated {program : Program} {c : Setting} (hwell : WellFormedStatements program)
    (hplaced : PlacedStatements c.table c.kept [] program)
    (hmentioned : ∀ mention ∈ program.mentions, c.known mention)
    (hdistinct : c.distinct → program.declaredNames.Nodup) :
    SituatedStatements c [] [] program where
  placed := hplaced
  wellFormed := hwell
  mentioned := hmentioned
  fresh h := Program.fresh (hdistinct h)
  owned _ _ _ _ := trivial

end Treewalk
