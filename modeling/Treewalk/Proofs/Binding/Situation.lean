import Treewalk.Proofs.Binding.Settling
import Treewalk.Proofs.Binding.Shapes

/-!
# Parts of a program in their scopes

**Wherever a part of a program stands, its references are in their places, its scopes have shapes, and
what it mentions is mentioned by the program.**  These facts go together from a part to the parts
in it, and nothing else about the source is needed where the part runs.  So they are put into one
judgement here, and taken apart constructor by constructor.
-/

namespace Treewalk

/-- What is given about the code that runs: the hop counts, those that are kept, everything that is
    mentioned, and whether all names that a program declares are different. -/
structure Setting where
  table : HopTable
  kept : Nat → Prop
  known : Mention → Prop
  distinct : Prop

/-- The names are different, and none is declared around. -/
structure Fresh (shapes : List Shape) (texts : List String) : Prop where
  nodup : texts.Nodup
  unshared : ∀ text ∈ texts, Unshared shapes text

theorem Fresh.sublist {shapes : List Shape} {texts fewer : List String} (h : Fresh shapes texts)
    (hfewer : fewer.Sublist texts) : Fresh shapes fewer :=
  ⟨h.nodup.sublist hfewer, fun text htext => h.unshared text (hfewer.subset htext)⟩

theorem Fresh.left {shapes : List Shape} {texts others : List String}
    (h : Fresh shapes (texts ++ others)) : Fresh shapes texts :=
  h.sublist (List.sublist_append_left _ _)

theorem Fresh.right {shapes : List Shape} {texts others : List String}
    (h : Fresh shapes (texts ++ others)) : Fresh shapes others :=
  h.sublist (List.sublist_append_right _ _)

/-- The names of a scope are not declared in scopes inside it. -/
theorem Fresh.enter {shapes : List Shape} {texts others : List String}
    (h : Fresh shapes (texts ++ others)) : Fresh (.names texts :: shapes) others where
  nodup := h.right.nodup
  unshared text htext found hfound hmem := by
    rcases List.mem_cons.mp hfound with heq | houter
    · cases heq
      exact (List.nodup_append.mp h.nodup).2.2 text hmem text htext rfl
    · exact h.right.unshared text htext found houter hmem

theorem Fresh.methods {shapes : List Shape} {texts : List String} (h : Fresh shapes texts)
    (declaration : ClassDecl) : Fresh (methodShapes declaration shapes) texts where
  nodup := h.nodup
  unshared text htext found hfound hmem := by
    refine h.unshared text htext found ?_ hmem
    unfold methodShapes at hfound
    split at hfound <;> simpa using hfound

section Judgement

variable (c : Setting) (scopes : List Scope) (shapes : List Shape)

/-- An expression in its scopes, in the initializer of a variable if one is given. -/
structure Expr.Situated (initialized : Option String) (e : Expr) : Prop where
  placed : e.Placed c.table scopes
  wellFormed : e.WellFormed
  mentioned : ∀ mention ∈ e.mentions (innermostClass shapes) initialized, c.known mention

structure SituatedArguments (initialized : Option String) (args : List Expr) : Prop where
  placed : PlacedArguments c.table scopes args
  wellFormed : WellFormedArguments args
  mentioned : ∀ mention ∈ argumentMentions (innermostClass shapes) initialized args, c.known mention

/-- An expression that may be missing. -/
def SituatedOptional (initialized : Option String) (value : Option Expr) : Prop :=
  ∀ result, value = some result → result.Situated c scopes shapes initialized

/-- A statement in its scopes. -/
structure Stmt.Situated (s : Stmt) : Prop where
  placed : s.Placed c.table c.kept scopes
  wellFormed : s.WellFormed
  mentioned : ∀ mention ∈ s.mentions (innermostClass shapes), c.known mention
  fresh : c.distinct → Fresh shapes s.innerNames
  owned : ∀ text, s.declaredName = some text → Owns shapes text

structure FunctionDecl.Situated (f : FunctionDecl) : Prop where
  placed : f.Placed c.table c.kept scopes
  wellFormed : f.WellFormed
  mentioned : ∀ mention ∈ f.mentions (innermostClass shapes), c.known mention
  fresh : c.distinct → Fresh shapes f.innerNames

structure SituatedStatements (body : List Stmt) : Prop where
  placed : PlacedStatements c.table c.kept scopes body
  wellFormed : WellFormedStatements body
  mentioned : ∀ mention ∈ statementMentions (innermostClass shapes) body, c.known mention
  fresh : c.distinct → Fresh shapes (statementInnerNames body)
  owned : ∀ s ∈ body, ∀ text, s.declaredName = some text → Owns shapes text

/-- The superclass of a class, if it has one. -/
structure SituatedSuperclass (name : Name) (superclass : Option Reference) : Prop where
  placed : SuperclassPlaced c.table scopes name superclass
  wellFormed : ∀ parent, superclass = some parent → IsUnreserved parent.name.text

end Judgement

section Parts

variable {c : Setting} {scopes : List Scope} {shapes : List Shape} {initialized : Option String}

/-! ### Expressions -/

namespace Expr.Situated

theorem grouping {inner : Expr} (h : (Expr.grouping inner).Situated c scopes shapes initialized) :
    inner.Situated c scopes shapes initialized :=
  ⟨h.placed, h.wellFormed, h.mentioned⟩

theorem unary {op : UnaryOp} {line : Nat} {operand : Expr}
    (h : (Expr.unary op line operand).Situated c scopes shapes initialized) :
    operand.Situated c scopes shapes initialized :=
  ⟨h.placed, h.wellFormed, h.mentioned⟩

theorem binary {op : BinaryOp} {line : Nat} {left right : Expr}
    (h : (Expr.binary op line left right).Situated c scopes shapes initialized) :
    left.Situated c scopes shapes initialized ∧ right.Situated c scopes shapes initialized := by
  obtain ⟨hplaced, hwell, hmentioned⟩ := h
  rw [mentions, List.forall_mem_append] at hmentioned
  exact ⟨⟨hplaced.1, hwell.1, hmentioned.1⟩, ⟨hplaced.2, hwell.2, hmentioned.2⟩⟩

theorem logical {op : LogicalOp} {line : Nat} {left right : Expr}
    (h : (Expr.logical op line left right).Situated c scopes shapes initialized) :
    left.Situated c scopes shapes initialized ∧ right.Situated c scopes shapes initialized := by
  obtain ⟨hplaced, hwell, hmentioned⟩ := h
  rw [mentions, List.forall_mem_append] at hmentioned
  exact ⟨⟨hplaced.1, hwell.1, hmentioned.1⟩, ⟨hplaced.2, hwell.2, hmentioned.2⟩⟩

theorem assign {name : Name} {id : Nat} {value : Expr}
    (h : (Expr.assign name id value).Situated c scopes shapes initialized) :
    value.Situated c scopes shapes initialized ∧ c.table[id]? = hopsIn scopes name.text
      ∧ IsUnreserved name.text ∧ c.known (.assign initialized name.text id) := by
  obtain ⟨hplaced, hwell, hmentioned⟩ := h
  rw [mentions, List.forall_mem_append] at hmentioned
  exact ⟨⟨hplaced.1, hwell.1, hmentioned.1⟩, hplaced.2, hwell.2,
    hmentioned.2 _ List.mem_cons_self⟩

theorem call {callee : Expr} {line : Nat} {args : List Expr}
    (h : (Expr.call callee line args).Situated c scopes shapes initialized) :
    callee.Situated c scopes shapes initialized
      ∧ SituatedArguments c scopes shapes initialized args := by
  obtain ⟨hplaced, hwell, hmentioned⟩ := h
  rw [mentions, List.forall_mem_append] at hmentioned
  exact ⟨⟨hplaced.1, hwell.1, hmentioned.1⟩, ⟨hplaced.2, hwell.2, hmentioned.2⟩⟩

theorem get {object : Expr} {name : Name}
    (h : (Expr.get object name).Situated c scopes shapes initialized) :
    object.Situated c scopes shapes initialized :=
  ⟨h.placed, h.wellFormed, h.mentioned⟩

theorem set {object value : Expr} {name : Name}
    (h : (Expr.set object name value).Situated c scopes shapes initialized) :
    object.Situated c scopes shapes initialized ∧ value.Situated c scopes shapes initialized := by
  obtain ⟨hplaced, hwell, hmentioned⟩ := h
  rw [mentions, List.forall_mem_append] at hmentioned
  exact ⟨⟨hplaced.1, hwell.1, hmentioned.1⟩, ⟨hplaced.2, hwell.2, hmentioned.2⟩⟩

theorem super {line id : Nat} {method : Name}
    (h : (Expr.super line id method).Situated c scopes shapes initialized) :
    SuperPlaced c.table scopes id ∧ c.known (.super (innermostClass shapes) id) :=
  ⟨h.placed, h.mentioned _ List.mem_cons_self⟩

end Expr.Situated

theorem SituatedArguments.cons {argument : Expr} {args : List Expr}
    (h : SituatedArguments c scopes shapes initialized (argument :: args)) :
    argument.Situated c scopes shapes initialized
      ∧ SituatedArguments c scopes shapes initialized args := by
  obtain ⟨hplaced, hwell, hmentioned⟩ := h
  rw [argumentMentions, List.forall_mem_append] at hmentioned
  exact ⟨⟨hplaced.1, hwell.1, hmentioned.1⟩, ⟨hplaced.2, hwell.2, hmentioned.2⟩⟩

/-! ### Statements -/

namespace Stmt.Situated

theorem expression {value : Expr} (h : (Stmt.expression value).Situated c scopes shapes) :
    value.Situated c scopes shapes none :=
  ⟨h.placed, h.wellFormed, h.mentioned⟩

theorem print {value : Expr} (h : (Stmt.print value).Situated c scopes shapes) :
    value.Situated c scopes shapes none :=
  ⟨h.placed, h.wellFormed, h.mentioned⟩

/-- While the initializer is read, the name is declared and not yet ready. -/
theorem var {name : Name} {initializer : Option Expr}
    (h : (Stmt.var name initializer).Situated c scopes shapes) :
    SituatedOptional c (putName name.text .declared scopes) shapes (some name.text) initializer := by
  obtain ⟨hplaced, hwell, hmentioned, -, -⟩ := h
  rw [Stmt.Placed] at hplaced
  rw [Stmt.WellFormed] at hwell
  rintro value rfl
  exact ⟨hplaced value rfl, hwell.2 value rfl, hmentioned⟩

theorem «return» {line : Nat} {value : Option Expr}
    (h : (Stmt.return line value).Situated c scopes shapes) :
    SituatedOptional c scopes shapes none value := by
  obtain ⟨hplaced, hwell, hmentioned, -, -⟩ := h
  rw [Stmt.Placed] at hplaced
  rw [Stmt.WellFormed] at hwell
  rintro result rfl
  exact ⟨hplaced result rfl, hwell result rfl, hmentioned⟩

/-- A statement that is no declaration declares no name. -/
theorem not_owned {s : Stmt} (h : s.isDeclaration = false) (text : String)
    (htext : s.declaredName = some text) : Owns shapes text := by
  rw [Stmt.declaredName_eq_none h] at htext
  cases htext

theorem ifThen {condition : Expr} {thenBranch : Stmt}
    (h : (Stmt.ifElse condition thenBranch none).Situated c scopes shapes) :
    condition.Situated c scopes shapes none ∧ thenBranch.Situated c scopes shapes := by
  obtain ⟨hplaced, hwell, hmentioned, hfresh, -⟩ := h
  rw [Stmt.Placed] at hplaced
  rw [Stmt.WellFormed] at hwell
  rw [mentions, List.forall_mem_append] at hmentioned
  exact ⟨⟨hplaced.1, hwell.1, hmentioned.1⟩,
    ⟨hplaced.2.1, hwell.2.1, hmentioned.2, hfresh, not_owned hwell.2.2⟩⟩

theorem ifElse {condition : Expr} {thenBranch elseBranch : Stmt}
    (h : (Stmt.ifElse condition thenBranch (some elseBranch)).Situated c scopes shapes) :
    condition.Situated c scopes shapes none ∧ thenBranch.Situated c scopes shapes
      ∧ elseBranch.Situated c scopes shapes := by
  obtain ⟨hplaced, hwell, hmentioned, hfresh, -⟩ := h
  rw [Stmt.Placed] at hplaced
  rw [Stmt.WellFormed] at hwell
  rw [mentions, List.forall_mem_append, List.forall_mem_append] at hmentioned
  refine ⟨⟨hplaced.1, hwell.1, hmentioned.1⟩, ?_, ?_⟩
  · exact ⟨hplaced.2.1.1, hwell.2.1.1, hmentioned.2.1, fun hdistinct => (hfresh hdistinct).left,
      not_owned hwell.2.1.2⟩
  · exact ⟨hplaced.2.2.1, hwell.2.2.1, hmentioned.2.2, fun hdistinct => (hfresh hdistinct).right,
      not_owned hwell.2.2.2⟩

theorem whileLoop {condition : Expr} {body : Stmt}
    (h : (Stmt.whileLoop condition body).Situated c scopes shapes) :
    condition.Situated c scopes shapes none ∧ body.Situated c scopes shapes := by
  obtain ⟨hplaced, hwell, hmentioned, hfresh, -⟩ := h
  rw [Stmt.Placed] at hplaced
  rw [Stmt.WellFormed] at hwell
  rw [mentions, List.forall_mem_append] at hmentioned
  exact ⟨⟨hplaced.1, hwell.1, hmentioned.1⟩,
    ⟨hplaced.2.1, hwell.2.1, hmentioned.2, hfresh, not_owned hwell.2.2⟩⟩

theorem function {declaration : FunctionDecl}
    (h : (Stmt.function declaration).Situated c scopes shapes) :
    declaration.Situated c (putName declaration.name.text .defined scopes) shapes := by
  obtain ⟨hplaced, hwell, hmentioned, hfresh, -⟩ := h
  rw [Stmt.Placed] at hplaced
  rw [Stmt.WellFormed] at hwell
  exact ⟨hplaced, hwell, hmentioned, hfresh⟩

theorem superclass {name : Name} {parent : Option Reference} {methods : List FunctionDecl}
    (h : (Stmt.class name parent methods).Situated c scopes shapes) :
    SituatedSuperclass c scopes name parent := by
  obtain ⟨hplaced, hwell, -, -, -⟩ := h
  rw [Stmt.Placed] at hplaced
  rw [Stmt.WellFormed] at hwell
  exact ⟨hplaced.1, hwell.2.1⟩

theorem wellFormed_of_mem {methods : List FunctionDecl} (h : WellFormedMethods methods)
    {method : FunctionDecl} (hmem : method ∈ methods) : method.WellFormed := by
  induction methods with
  | nil => cases hmem
  | cons first rest ih =>
    rw [WellFormedMethods] at h
    rcases List.mem_cons.mp hmem with rfl | hrest
    · exact h.1
    · exact ih h.2 hrest

theorem method {name : Name} {parent : Option Reference} {methods : List FunctionDecl}
    (h : (Stmt.class name parent methods).Situated c scopes shapes) {method : FunctionDecl}
    (hmem : method ∈ methods) :
    method.Situated c (methodScopes parent.isSome (putName name.text .defined scopes))
      (methodShapes ⟨name, parent, methods⟩ shapes) := by
  obtain ⟨hplaced, hwell, hmentioned, hfresh, -⟩ := h
  rw [Stmt.Placed] at hplaced
  rw [Stmt.WellFormed] at hwell
  refine ⟨hplaced.2.of_mem hmem, wellFormed_of_mem hwell.2.2 hmem,
    fun mention hmention => hmentioned mention (methodMentions_subset hmem hmention),
    fun hdistinct => ?_⟩
  exact ((hfresh hdistinct).sublist (methodInnerNames_sublist hmem)).methods _

end Stmt.Situated

namespace SituatedStatements

theorem cons {s : Stmt} {rest : List Stmt} (h : SituatedStatements c scopes shapes (s :: rest)) :
    s.Situated c scopes shapes ∧ SituatedStatements c (s.scopesAfter scopes) shapes rest := by
  obtain ⟨hplaced, hwell, hmentioned, hfresh, howned⟩ := h
  rw [PlacedStatements] at hplaced
  rw [WellFormedStatements] at hwell
  rw [statementMentions, List.forall_mem_append] at hmentioned
  refine ⟨⟨hplaced.1, hwell.1, hmentioned.1, fun hdistinct => (hfresh hdistinct).left,
    howned s List.mem_cons_self⟩, ⟨hplaced.2, hwell.2, hmentioned.2,
    fun hdistinct => (hfresh hdistinct).right,
    fun t ht => howned t (List.mem_cons_of_mem _ ht)⟩⟩

theorem wellFormed_of_mem {body : List Stmt} (h : WellFormedStatements body) {s : Stmt}
    (hmem : s ∈ body) : s.WellFormed := by
  induction body with
  | nil => cases hmem
  | cons first rest ih =>
    rw [WellFormedStatements] at h
    rcases List.mem_cons.mp hmem with rfl | hrest
    · exact h.1
    · exact ih h.2 hrest

theorem isUnreserved_ownNames {body : List Stmt} (h : WellFormedStatements body) {text : String}
    (htext : text ∈ ownNames body) : IsUnreserved text := by
  obtain ⟨s, hs, hname⟩ := List.mem_filterMap.mp htext
  exact Stmt.isUnreserved_declaredName (wellFormed_of_mem h hs) hname

end SituatedStatements

/-- The body of a block is situated in a scope of its own. -/
theorem Stmt.Situated.block {body : List Stmt} (h : (Stmt.block body).Situated c scopes shapes)
    (hshaped : Shaped c.distinct scopes shapes) :
    SituatedStatements c (∅ :: scopes) (.names (ownNames body) :: shapes) body
      ∧ Shaped c.distinct (∅ :: scopes) (.names (ownNames body) :: shapes) := by
  obtain ⟨hplaced, hwell, hmentioned, hfresh, -⟩ := h
  rw [Stmt.Placed] at hplaced
  rw [Stmt.WellFormed] at hwell
  refine ⟨⟨hplaced, hwell, hmentioned, fun hdistinct => (hfresh hdistinct).enter,
    fun s hs text htext => mem_ownNames hs htext⟩, ?_⟩
  refine .names (fun text hmem => by simp at hmem) (fun text htext => ?_) (fun hdistinct => ?_) hshaped
  · exact SituatedStatements.isUnreserved_ownNames hwell htext
  · exact (hfresh hdistinct).left.unshared

/-- The names of a function are its parameters and those of its body. -/
def FunctionDecl.scopeNames (f : FunctionDecl) : List String :=
  f.params.map Name.text ++ ownNames f.body

theorem mem_paramNames {params : List Name} {text : String} (h : text ∈ paramScope params) :
    text ∈ params.map Name.text := by
  rw [← Std.ExtTreeMap.isSome_getElem?_iff_mem, getElem?_paramScope] at h
  split at h
  · rename_i hparam
    obtain ⟨param, hmem, rfl⟩ := hparam
    exact List.mem_map_of_mem hmem
  · cases h

/-- The body of a function is situated in one scope with its parameters. -/
theorem FunctionDecl.Situated.body {f : FunctionDecl} (h : f.Situated c scopes shapes)
    (hshaped : Shaped c.distinct scopes shapes) :
    SituatedStatements c (paramScope f.params :: scopes) (.names f.scopeNames :: shapes) f.body
      ∧ Shaped c.distinct (paramScope f.params :: scopes) (.names f.scopeNames :: shapes) := by
  rcases f with ⟨name, params, body⟩
  obtain ⟨hplaced, hwell, hmentioned, hfresh⟩ := h
  rw [FunctionDecl.Placed] at hplaced
  rw [FunctionDecl.WellFormed] at hwell
  refine ⟨⟨hplaced.2, hwell.2.2, hmentioned, fun hdistinct => (hfresh hdistinct).enter,
    fun s hs text htext => List.mem_append_right _ (mem_ownNames hs htext)⟩, ?_⟩
  refine .names (fun text hmem => List.mem_append_left _ (mem_paramNames hmem)) ?_
    (fun hdistinct => (hfresh hdistinct).left.unshared) hshaped
  intro text htext
  rcases List.mem_append.mp htext with hparam | hown
  · obtain ⟨param, hmem, rfl⟩ := List.mem_map.mp hparam
    exact hwell.2.1 param hmem
  · exact SituatedStatements.isUnreserved_ownNames hwell.2.2 hown

theorem Shaped.scopesAfter {s : Stmt} (h : s.Situated c scopes shapes)
    (hshaped : Shaped c.distinct scopes shapes) :
    Shaped c.distinct (s.scopesAfter scopes) shapes := by
  unfold Stmt.scopesAfter
  rcases htext : s.declaredName with _ | text
  · exact hshaped
  · exact hshaped.putName (h.owned text htext) .defined

end Parts

end Treewalk
