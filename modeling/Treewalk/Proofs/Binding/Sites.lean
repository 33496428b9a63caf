import Treewalk.Proofs.Binding.Lexical

/-!
# Where binding errors are reported

**A binding error is reported at a name or a keyword of the program, and errors come in the order in
which the walk meets these sites.**  The walk goes along the tree and reports at most one error for
each rule.  Two rules hold for the name of a superclass, which is a site twice.  The target of an
assignment breaks no rule and is no site.
-/

namespace Treewalk

/-! ### Sites -/

mutual

/-- The sites of an expression, in the order in which the walk meets them. -/
def Expr.sites : Expr → List Name
  | .literal _ => []
  | .grouping inner => inner.sites
  | .unary _ _ operand => operand.sites
  | .binary _ _ left right => left.sites ++ right.sites
  | .logical _ _ left right => left.sites ++ right.sites
  | .variable name _ => [name]
  | .assign _ _ value => value.sites
  | .call callee _ args => callee.sites ++ argumentSites args
  | .get object _ => object.sites
  | .set object _ value => object.sites ++ value.sites
  | .this line _ => [⟨"this", line⟩]
  | .super line _ _ => [⟨"super", line⟩]

/-- The sites of arguments. -/
def argumentSites : List Expr → List Name
  | [] => []
  | argument :: args => argument.sites ++ argumentSites args

end

/-- The sites of an expression that may be missing. -/
def optionalSites : Option Expr → List Name
  | some value => value.sites
  | none => []

/-- The sites of the superclass of a class, if it has one. -/
def superclassSites : Option Reference → List Name
  | some superclass => [superclass.name, superclass.name]
  | none => []

mutual

/-- The sites of a statement. -/
def Stmt.sites : Stmt → List Name
  | .expression value => value.sites
  | .print value => value.sites
  | .var name initializer => name :: optionalSites initializer
  | .block body => statementSites body
  | .ifElse condition thenBranch none => condition.sites ++ thenBranch.sites
  | .ifElse condition thenBranch (some elseBranch) =>
    condition.sites ++ (thenBranch.sites ++ elseBranch.sites)
  | .whileLoop condition body => condition.sites ++ body.sites
  | .function declaration => declaration.name :: declaration.sites
  | .return line value => ⟨"return", line⟩ :: optionalSites value
  | .class name superclass methods => name :: (superclassSites superclass ++ methodSites methods)

/-- The sites of a function, without its name. -/
def FunctionDecl.sites : FunctionDecl → List Name
  | ⟨_, params, body⟩ => params ++ statementSites body

/-- The sites of a list of statements. -/
def statementSites : List Stmt → List Name
  | [] => []
  | s :: rest => s.sites ++ statementSites rest

/-- The sites of methods. -/
def methodSites : List FunctionDecl → List Name
  | [] => []
  | method :: rest => method.sites ++ methodSites rest

end

/-! ### Sites and occurrences -/

/-- The site at which a broken rule is reported. -/
def Item.site? : Item → Option Name
  | .declaration name => some name
  | .variable name _ => some name
  | .assignment _ _ => none
  | .this line _ => some ⟨"this", line⟩
  | .super line _ => some ⟨"super", line⟩
  | .return line _ => some ⟨"return", line⟩
  | .inheritance _ superclass => some superclass

/-- The site of an occurrence. -/
def Occurrence.site? (o : Occurrence) : Option Name :=
  o.what.site?

theorem Occurrence.site_of_error {o : Occurrence} {e : BindingError} (h : o.error? = some e) :
    o.site? = some e.site := by
  revert h
  fun_cases Occurrence.error? o <;> intro h <;> cases h <;> rfl

/-- The errors of occurrences stand at their sites, in the same order. -/
theorem map_site_errors_sublist (occurrences : List Occurrence) :
    ((occurrences.filterMap Occurrence.error?).map BindingError.site).Sublist
      (occurrences.filterMap Occurrence.site?) := by
  induction occurrences with
  | nil => exact .slnil
  | cons o occurrences ih =>
    rcases herror : o.error? with _ | e
    · rw [List.filterMap_cons_none herror]
      rcases hsite : o.site? with _ | site
      · rw [List.filterMap_cons_none hsite]
        exact ih
      · rw [List.filterMap_cons_some hsite]
        exact ih.cons site
    · rw [List.filterMap_cons_some herror, List.filterMap_cons_some (Occurrence.site_of_error herror)]
      exact ih.cons_cons e.site

mutual

theorem Expr.sites_occurrences (around : Path) : ∀ e : Expr,
    (e.occurrences around).filterMap Occurrence.site? = e.sites
  | .literal _ => rfl
  | .grouping inner => inner.sites_occurrences around
  | .unary _ _ operand => operand.sites_occurrences around
  | .binary _ _ left right => by
    rw [Expr.occurrences, List.filterMap_append, left.sites_occurrences, right.sites_occurrences,
      Expr.sites]
  | .logical _ _ left right => by
    rw [Expr.occurrences, List.filterMap_append, left.sites_occurrences, right.sites_occurrences,
      Expr.sites]
  | .variable _ _ => rfl
  | .assign _ _ value => by
    rw [Expr.occurrences, List.filterMap_append, value.sites_occurrences, Expr.sites]
    exact List.append_nil _
  | .call callee _ args => by
    rw [Expr.occurrences, List.filterMap_append, callee.sites_occurrences,
      sites_argumentOccurrences around args, Expr.sites]
  | .get object _ => object.sites_occurrences around
  | .set object _ value => by
    rw [Expr.occurrences, List.filterMap_append, object.sites_occurrences, value.sites_occurrences,
      Expr.sites]
  | .this _ _ => rfl
  | .super _ _ _ => rfl

theorem sites_argumentOccurrences (around : Path) : ∀ args : List Expr,
    (argumentOccurrences around args).filterMap Occurrence.site? = argumentSites args
  | [] => rfl
  | argument :: args => by
    rw [argumentOccurrences, List.filterMap_append, argument.sites_occurrences,
      sites_argumentOccurrences around args, argumentSites]

end

theorem sites_optionalOccurrences (around : Path) (value : Option Expr) :
    (optionalOccurrences around value).filterMap Occurrence.site? = optionalSites value := by
  rcases value with _ | value
  · rfl
  · exact value.sites_occurrences around

theorem sites_superclassOccurrences (around : Path) (name : Name) (superclass : Option Reference) :
    (superclassOccurrences around name superclass).filterMap Occurrence.site?
      = superclassSites superclass := by
  rcases superclass with _ | superclass <;> rfl

theorem sites_parameterOccurrences (around : Path) (params : List Name) :
    (parameterOccurrences around params).filterMap Occurrence.site? = params := by
  induction params generalizing around with
  | nil => rfl
  | cons param params ih => exact congrArg (param :: ·) (ih (.declared param.text :: around))

mutual

theorem Stmt.sites_occurrences (around : Path) : ∀ s : Stmt,
    (s.occurrences around).filterMap Occurrence.site? = s.sites
  | .expression value => value.sites_occurrences around
  | .print value => value.sites_occurrences around
  | .var name initializer => congrArg (name :: ·) (sites_optionalOccurrences _ initializer)
  | .block body => sites_statementOccurrences _ body
  | .ifElse condition thenBranch none => by
    rw [Stmt.occurrences, List.filterMap_append, condition.sites_occurrences,
      thenBranch.sites_occurrences, Stmt.sites]
  | .ifElse condition thenBranch (some elseBranch) => by
    rw [Stmt.occurrences, List.filterMap_append, List.filterMap_append, condition.sites_occurrences,
      thenBranch.sites_occurrences, elseBranch.sites_occurrences, Stmt.sites]
  | .whileLoop condition body => by
    rw [Stmt.occurrences, List.filterMap_append, condition.sites_occurrences, body.sites_occurrences,
      Stmt.sites]
  | .function declaration => congrArg (declaration.name :: ·) (declaration.sites_occurrences none _)
  | .return line value =>
    congrArg ((⟨"return", line⟩ : Name) :: ·) (sites_optionalOccurrences around value)
  | .class name superclass methods => by
    rw [Stmt.occurrences, ← List.singleton_append, List.filterMap_append, List.filterMap_append,
      sites_superclassOccurrences, sites_methodOccurrences _ methods]
    rfl

theorem FunctionDecl.sites_occurrences (method : Option String) (around : Path) :
    ∀ f : FunctionDecl, (f.occurrences method around).filterMap Occurrence.site? = f.sites
  | ⟨_, params, body⟩ => by
    rw [FunctionDecl.occurrences, List.filterMap_append, sites_parameterOccurrences,
      sites_statementOccurrences _ body, FunctionDecl.sites]

theorem sites_statementOccurrences (around : Path) : ∀ body : List Stmt,
    (statementOccurrences around body).filterMap Occurrence.site? = statementSites body
  | [] => rfl
  | s :: rest => by
    rw [statementOccurrences, List.filterMap_append, s.sites_occurrences,
      sites_statementOccurrences _ rest, statementSites]

theorem sites_methodOccurrences (around : Path) : ∀ methods : List FunctionDecl,
    (methodOccurrences around methods).filterMap Occurrence.site? = methodSites methods
  | [] => rfl
  | method :: rest => by
    rw [methodOccurrences, List.filterMap_append, method.sites_occurrences,
      sites_methodOccurrences _ rest, methodSites]

end

/-- The errors of a program stand at its sites, in the same order. -/
theorem Program.errors_at_sites {program : Program} (h : WellFormedStatements program) :
    ((Program.bindings program).errors.map BindingError.site).Sublist (statementSites program) := by
  have herrors : (Program.bindings program).errors
      = (Program.occurrences program).filterMap Occurrence.error? := (Program.meets_bindings h).errors
  rw [herrors, ← sites_statementOccurrences [] program]
  exact map_site_errors_sublist _

theorem statementSites_append (first rest : List Stmt) :
    statementSites (first ++ rest) = statementSites first ++ statementSites rest := by
  induction first with
  | nil => rfl
  | cons s first ih => simp only [List.cons_append, statementSites, ih, List.append_assoc]

end Treewalk
