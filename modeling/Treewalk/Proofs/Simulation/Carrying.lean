import Treewalk.Proofs.Binding.Placement
import Treewalk.Proofs.Simulation.Machines
import Treewalk.Proofs.Store.Moving

/-!
# What stays alike

**A placed program is like itself, and what is alike stays alike when tables change at numbers
that are not kept.**  Both sides may be moved to other lines at the same time, as long as the
new correspondence relates the new lines.
-/

namespace Treewalk

namespace Correspondence

/-! ### Programs and themselves -/

/-- Names and lines may stay what they are. -/
structure Reflexive (c : Correspondence) : Prop where
  lines : ∀ line, c.lines line line
  occurs : ∀ text, c.occurs text

section Reflexivity

variable {c : Correspondence} {kept : Nat → Prop} {table : HopTable}

theorem nameLike_refl (hc : c.Reflexive) (name : Name) : NameLike c .same name name :=
  ⟨rfl, hc.lines name.line⟩

/-- Scopes in which no names are exchanged. -/
def Unchanged (renamings : List Renaming) : Prop :=
  ∀ π ∈ renamings, π = .same

theorem unchanged_nil : Unchanged [] := fun _ hπ => by cases hπ

theorem Unchanged.cons {renamings : List Renaming} (h : Unchanged renamings) :
    Unchanged (.same :: renamings) := by
  intro π hπ
  rcases List.mem_cons.mp hπ with rfl | hmem
  · rfl
  · exact h π hmem

theorem Unchanged.headD {renamings : List Renaming} (h : Unchanged renamings) :
    renamings.headD .same = .same := by
  rcases renamings with _ | ⟨π, rest⟩
  · rfl
  · exact h π List.mem_cons_self

theorem Unchanged.atHops {renamings : List Renaming} (h : Unchanged renamings) (hops : Option Nat) :
    atHops renamings hops = .same := by
  rcases hops with _ | hops
  · rfl
  · show renamings.getD hops .same = .same
    rw [List.getD_eq_getElem?_getD]
    rcases hget : renamings[hops]? with _ | π
    · rfl
    · exact h π (List.mem_of_getElem? hget)

theorem refLike_refl {renamings : List Renaming} (h : Unchanged renamings) {id : Nat} (text : String)
    (hid : c.left[id]? = c.right[id]?) : RefLike c renamings id text text :=
  ⟨hid, by rw [h.atHops]; rfl⟩

mutual

theorem exprLike_refl (hc : c.Reflexive) {renamings : List Renaming} (hr : Unchanged renamings) :
    ∀ e : Expr, (∀ id ∈ e.references, c.left[id]? = c.right[id]?) → ExprLike c renamings e e
  | .literal value, _ => .literal value
  | .grouping inner, h => .grouping (exprLike_refl hc hr inner h)
  | .unary _ line operand, h => .unary (hc.lines line) (exprLike_refl hc hr operand h)
  | .binary _ line left right, h => by
    rw [Expr.references] at h
    exact .binary (hc.lines line)
      (exprLike_refl hc hr left fun id hid => h id (List.mem_append_left _ hid))
      (exprLike_refl hc hr right fun id hid => h id (List.mem_append_right _ hid))
  | .logical _ line left right, h => by
    rw [Expr.references] at h
    exact .logical
      (exprLike_refl hc hr left fun id hid => h id (List.mem_append_left _ hid))
      (exprLike_refl hc hr right fun id hid => h id (List.mem_append_right _ hid))
  | .variable name id, h =>
    .variable (hc.lines name.line) (refLike_refl hr name.text (h id List.mem_cons_self))
  | .assign name id value, h => by
    rw [Expr.references] at h
    have hid := h id (List.mem_append_right _ List.mem_cons_self)
    exact .assign (hc.lines name.line) (refLike_refl hr name.text hid)
      (exprLike_refl hc hr value fun id hid => h id (List.mem_append_left _ hid))
  | .call callee line args, h => by
    rw [Expr.references] at h
    exact .call (exprLike_refl hc hr callee fun id hid => h id (List.mem_append_left _ hid))
      (hc.lines line) (argumentsLike_refl hc hr args fun id hid => h id (List.mem_append_right _ hid))
  | .get object name, h => .get (exprLike_refl hc hr object h) (nameLike_refl hc name)
  | .set object name value, h => by
    rw [Expr.references] at h
    exact .set (exprLike_refl hc hr object fun id hid => h id (List.mem_append_left _ hid))
      (nameLike_refl hc name)
      (exprLike_refl hc hr value fun id hid => h id (List.mem_append_right _ hid))
  | .this line id, h => .this (hc.lines line) (refLike_refl hr "this" (h id List.mem_cons_self))
  | .super line id method, h =>
    .super (hc.lines line) (refLike_refl hr "super" (h id List.mem_cons_self))
      (nameLike_refl hc method)

theorem argumentsLike_refl (hc : c.Reflexive) {renamings : List Renaming} (hr : Unchanged renamings) :
    ∀ args : List Expr, (∀ id ∈ argumentReferences args, c.left[id]? = c.right[id]?) →
    ArgumentsLike c renamings args args
  | [], _ => .nil
  | argument :: args, h => by
    rw [argumentReferences] at h
    exact .cons (exprLike_refl hc hr argument fun id hid => h id (List.mem_append_left _ hid))
      (argumentsLike_refl hc hr args fun id hid => h id (List.mem_append_right _ hid))

end

theorem optionalLike_refl (hc : c.Reflexive) {renamings : List Renaming} (hr : Unchanged renamings) :
    ∀ value : Option Expr, (∀ id ∈ optionalReferences value, c.left[id]? = c.right[id]?) →
    OptionalLike c renamings value value
  | none, _ => .none
  | some value, h => .some (exprLike_refl hc hr value h)

theorem superclassLike_refl (hc : c.Reflexive) {renamings : List Renaming} (hr : Unchanged renamings) :
    ∀ r : Option Reference, (∀ id ∈ superclassReferences r, c.left[id]? = c.right[id]?) →
    Option.Rel (SuperclassLike c renamings) r r
  | none, _ => .none
  | some r, h => .some ⟨rfl, hc.lines r.name.line, refLike_refl hr _ (h r.id List.mem_cons_self),
    hc.occurs _⟩

theorem Unchanged.methodRenamings {renamings : List Renaming} (h : Unchanged renamings)
    (derived : Bool) : Unchanged (methodRenamings derived renamings) := by
  cases derived with
  | false => exact h.cons
  | true => exact h.cons.cons

mutual

/-- A placed statement is like itself; what is kept has one hop count in both tables. -/
theorem stmtLike_refl (hc : c.Reflexive) (hkept : ∀ id, kept id → c.kept id)
    {renamings : List Renaming} {scopes : List Scope} (hr : Unchanged renamings) :
    ∀ s : Stmt, s.Placed table kept scopes →
    (∀ id ∈ s.references, c.left[id]? = c.right[id]?) → StmtLike c renamings s s
  | .expression value, _, h => .expression (exprLike_refl hc hr value h)
  | .print value, _, h => .print (exprLike_refl hc hr value h)
  | .var name initializer, _, h =>
    .var (by rw [hr.headD]; exact nameLike_refl hc name) (optionalLike_refl hc hr initializer h)
  | .block body, hplaced, h => by
    rw [Stmt.Placed] at hplaced
    exact .block c.renames_same (statementsLike_refl hc hkept hr.cons body hplaced h)
  | .ifElse condition thenBranch none, hplaced, h => by
    rw [Stmt.Placed] at hplaced
    rw [Stmt.references] at h
    exact .ifThen (exprLike_refl hc hr condition fun id hid => h id (List.mem_append_left _ hid))
      (stmtLike_refl hc hkept hr thenBranch hplaced.2.1
        fun id hid => h id (List.mem_append_right _ hid))
  | .ifElse condition thenBranch (some elseBranch), hplaced, h => by
    rw [Stmt.Placed] at hplaced
    rw [Stmt.references] at h
    have hbranches := fun id hid => h id (List.mem_append_right _ hid)
    exact .ifElse (exprLike_refl hc hr condition fun id hid => h id (List.mem_append_left _ hid))
      (stmtLike_refl hc hkept hr thenBranch hplaced.2.1.1
        fun id hid => hbranches id (List.mem_append_left _ hid))
      (stmtLike_refl hc hkept hr elseBranch hplaced.2.2.1
        fun id hid => hbranches id (List.mem_append_right _ hid))
  | .whileLoop condition body, hplaced, h => by
    rw [Stmt.Placed] at hplaced
    rw [Stmt.references] at h
    exact .whileLoop (exprLike_refl hc hr condition fun id hid => h id (List.mem_append_left _ hid))
      (stmtLike_refl hc hkept hr body hplaced.2.1 fun id hid => h id (List.mem_append_right _ hid))
  | .function declaration, hplaced, h => by
    rw [Stmt.Placed] at hplaced
    exact .function (by rw [hr.headD]; rfl) (functionLike_refl hc hkept hr declaration hplaced h)
  | .return _ value, _, h => .return (optionalLike_refl hc hr value h)
  | .class name superclass methods, hplaced, h => by
    rw [Stmt.Placed] at hplaced
    rw [Stmt.references] at h
    exact .class (by rw [hr.headD]; rfl) (nameLike_refl hc name)
      (superclassLike_refl hc hr superclass fun id hid => h id (List.mem_append_left _ hid))
      (methodsLike_refl hc hkept (hr.methodRenamings _) methods hplaced.2
        fun id hid => h id (List.mem_append_right _ hid))

theorem functionLike_refl (hc : c.Reflexive) (hkept : ∀ id, kept id → c.kept id)
    {renamings : List Renaming} {scopes : List Scope} (hr : Unchanged renamings) :
    ∀ f : FunctionDecl, f.Placed table kept scopes →
    (∀ id ∈ f.references, c.left[id]? = c.right[id]?) → FunctionLike c renamings f f
  | ⟨name, params, body⟩, hplaced, h => by
    rw [FunctionDecl.Placed] at hplaced
    exact .mk c.renames_same (nameLike_refl hc name)
      (List.forall₂_same.mpr fun param _ => nameLike_refl hc param)
      (fun id hid => hkept id (hplaced.1 id hid))
      (statementsLike_refl hc hkept hr.cons body hplaced.2 h)

theorem statementsLike_refl (hc : c.Reflexive) (hkept : ∀ id, kept id → c.kept id)
    {renamings : List Renaming} {scopes : List Scope} (hr : Unchanged renamings) :
    ∀ body : List Stmt, PlacedStatements table kept scopes body →
    (∀ id ∈ statementReferences body, c.left[id]? = c.right[id]?) →
    StatementsLike c renamings body body
  | [], _, _ => .nil
  | s :: rest, hplaced, h => by
    rw [PlacedStatements] at hplaced
    rw [statementReferences] at h
    exact .cons
      (stmtLike_refl hc hkept hr s hplaced.1 fun id hid => h id (List.mem_append_left _ hid))
      (statementsLike_refl hc hkept hr rest hplaced.2
        fun id hid => h id (List.mem_append_right _ hid))

theorem methodsLike_refl (hc : c.Reflexive) (hkept : ∀ id, kept id → c.kept id)
    {renamings : List Renaming} {scopes : List Scope} (hr : Unchanged renamings) :
    ∀ methods : List FunctionDecl, PlacedMethods table kept scopes methods →
    (∀ id ∈ methodReferences methods, c.left[id]? = c.right[id]?) →
    MethodsLike c renamings methods methods
  | [], _, _ => .nil
  | method :: rest, hplaced, h => by
    rw [PlacedMethods] at hplaced
    rw [methodReferences] at h
    exact .cons
      (functionLike_refl hc hkept hr method hplaced.1
        fun id hid => h id (List.mem_append_left _ hid))
      (methodsLike_refl hc hkept hr rest hplaced.2
        fun id hid => h id (List.mem_append_right _ hid))

end

end Reflexivity

/-! ### Other tables and other lines -/

/-- What is alike under the first correspondence is so under the second, when the left side is
moved by `f` and the right one by `g`. -/
structure Carries (c d : Correspondence) (f g : Nat → Nat) : Prop where
  lines : ∀ line line', c.lines line line' → d.lines (f line) (g line')
  renames : ∀ π, c.renames π → d.renames π
  occurs : ∀ text, c.occurs text → d.occurs text
  kept : ∀ id, c.kept id → d.kept id
  left : ∀ id, c.kept id → d.left[id]? = c.left[id]?
  right : ∀ id, c.kept id → d.right[id]? = c.right[id]?

/-- Both sides keep the hop count of a reference. -/
def Agrees (c d : Correspondence) (id : Nat) : Prop :=
  d.left[id]? = c.left[id]? ∧ d.right[id]? = c.right[id]?

section Carrying

variable {c d : Correspondence} {f g : Nat → Nat}

theorem Carries.agrees (h : Carries c d f g) {id : Nat} (hid : c.kept id) : Agrees c d id :=
  ⟨h.left id hid, h.right id hid⟩

theorem NameLike.carry (h : Carries c d f g) {π : Renaming} {name name' : Name}
    (hname : NameLike c π name name') :
    NameLike d π (name.move (.ofLines f)) (name'.move (.ofLines g)) :=
  ⟨hname.text, h.lines _ _ hname.line⟩

theorem namesLike_carry (h : Carries c d f g) {π : Renaming} {names names' : List Name}
    (hnames : List.Forall₂ (NameLike c π) names names') :
    List.Forall₂ (NameLike d π) (names.map (Name.move (.ofLines f)))
      (names'.map (Name.move (.ofLines g))) := by
  induction hnames with
  | nil => exact .nil
  | cons hname _ ih => exact .cons (hname.carry h) ih

theorem RefLike.carry {renamings : List Renaming} {id : Nat} {text text' : String}
    (href : RefLike c renamings id text text') (hid : Agrees c d id) :
    RefLike d renamings id text text' where
  hops := by rw [hid.1, hid.2, href.hops]
  text := by rw [hid.1, href.text]

mutual

theorem exprLike_carry (h : Carries c d f g) {renamings : List Renaming} : ∀ (e : Expr) {e' : Expr},
    ExprLike c renamings e e' → (∀ id ∈ e.references, Agrees c d id) →
    ExprLike d renamings (e.move (.ofLines f)) (e'.move (.ofLines g))
  | .literal _, _, .literal value, _ => .literal value
  | .grouping inner, _, .grouping hinner, hids => .grouping (exprLike_carry h inner hinner hids)
  | .unary _ _ operand, _, .unary hline hoperand, hids =>
    .unary (h.lines _ _ hline) (exprLike_carry h operand hoperand hids)
  | .binary _ _ left right, _, .binary hline hleft hright, hids => by
    rw [Expr.references] at hids
    exact .binary (h.lines _ _ hline)
      (exprLike_carry h left hleft fun id hid => hids id (List.mem_append_left _ hid))
      (exprLike_carry h right hright fun id hid => hids id (List.mem_append_right _ hid))
  | .logical _ _ left right, _, .logical hleft hright, hids => by
    rw [Expr.references] at hids
    exact .logical
      (exprLike_carry h left hleft fun id hid => hids id (List.mem_append_left _ hid))
      (exprLike_carry h right hright fun id hid => hids id (List.mem_append_right _ hid))
  | .variable _ id, _, .variable hline href, hids =>
    .variable (h.lines _ _ hline) (href.carry (hids id List.mem_cons_self))
  | .assign _ id value, _, .assign hline href hvalue, hids => by
    rw [Expr.references] at hids
    exact .assign (h.lines _ _ hline)
      (href.carry (hids id (List.mem_append_right _ List.mem_cons_self)))
      (exprLike_carry h value hvalue fun id hid => hids id (List.mem_append_left _ hid))
  | .call callee _ args, _, .call hcallee hline hargs, hids => by
    rw [Expr.references] at hids
    exact .call (exprLike_carry h callee hcallee fun id hid => hids id (List.mem_append_left _ hid))
      (h.lines _ _ hline)
      (argumentsLike_carry h args hargs fun id hid => hids id (List.mem_append_right _ hid))
  | .get object _, _, .get hobject hname, hids =>
    .get (exprLike_carry h object hobject hids) (hname.carry h)
  | .set object _ value, _, .set hobject hname hvalue, hids => by
    rw [Expr.references] at hids
    exact .set (exprLike_carry h object hobject fun id hid => hids id (List.mem_append_left _ hid))
      (hname.carry h)
      (exprLike_carry h value hvalue fun id hid => hids id (List.mem_append_right _ hid))
  | .this _ id, _, .this hline href, hids =>
    .this (h.lines _ _ hline) (href.carry (hids id List.mem_cons_self))
  | .super _ id _, _, .super hline href hname, hids =>
    .super (h.lines _ _ hline) (href.carry (hids id List.mem_cons_self)) (hname.carry h)

theorem argumentsLike_carry (h : Carries c d f g) {renamings : List Renaming} :
    ∀ (args : List Expr) {args' : List Expr}, ArgumentsLike c renamings args args' →
    (∀ id ∈ argumentReferences args, Agrees c d id) →
    ArgumentsLike d renamings (moveArguments (.ofLines f) args) (moveArguments (.ofLines g) args')
  | [], _, .nil, _ => .nil
  | argument :: args, _, .cons hargument hargs, hids => by
    rw [argumentReferences] at hids
    exact .cons (exprLike_carry h argument hargument fun id hid => hids id (List.mem_append_left _ hid))
      (argumentsLike_carry h args hargs fun id hid => hids id (List.mem_append_right _ hid))

end

theorem optionalLike_carry (h : Carries c d f g) {renamings : List Renaming} {value value' : Option Expr}
    (hvalue : OptionalLike c renamings value value')
    (hids : ∀ id ∈ optionalReferences value, Agrees c d id) :
    OptionalLike d renamings (value.map (Expr.move (.ofLines f)))
      (value'.map (Expr.move (.ofLines g))) := by
  cases hvalue with
  | none => exact .none
  | some hvalue => exact .some (exprLike_carry h _ hvalue hids)

theorem superclassLike_carry (h : Carries c d f g) {renamings : List Renaming}
    {r r' : Option Reference} (hr : Option.Rel (SuperclassLike c renamings) r r')
    (hids : ∀ id ∈ superclassReferences r, Agrees c d id) :
    Option.Rel (SuperclassLike d renamings) (r.map (Reference.move (.ofLines f)))
      (r'.map (Reference.move (.ofLines g))) := by
  cases hr with
  | none => exact .none
  | some hr =>
    exact .some ⟨hr.id, h.lines _ _ hr.line, hr.ref.carry (hids _ List.mem_cons_self),
      h.occurs _ hr.occurs⟩

mutual

theorem stmtLike_carry (h : Carries c d f g) {renamings : List Renaming} : ∀ (s : Stmt) {s' : Stmt},
    StmtLike c renamings s s' → (∀ id ∈ s.references, Agrees c d id) →
    StmtLike d renamings (s.move (.ofLines f)) (s'.move (.ofLines g))
  | .expression value, _, .expression hvalue, hids => .expression (exprLike_carry h value hvalue hids)
  | .print value, _, .print hvalue, hids => .print (exprLike_carry h value hvalue hids)
  | .var _ _, _, .var hname hinitializer, hids =>
    .var (hname.carry h) (optionalLike_carry h hinitializer hids)
  | .block body, _, .block hπ hbody, hids =>
    .block (h.renames _ hπ) (statementsLike_carry h body hbody hids)
  | .ifElse condition thenBranch none, _, .ifThen hcondition hthen, hids => by
    rw [Stmt.references] at hids
    exact .ifThen
      (exprLike_carry h condition hcondition fun id hid => hids id (List.mem_append_left _ hid))
      (stmtLike_carry h thenBranch hthen fun id hid => hids id (List.mem_append_right _ hid))
  | .ifElse condition thenBranch (some elseBranch), _, .ifElse hcondition hthen helse, hids => by
    rw [Stmt.references] at hids
    have hbranches := fun id hid => hids id (List.mem_append_right _ hid)
    exact .ifElse
      (exprLike_carry h condition hcondition fun id hid => hids id (List.mem_append_left _ hid))
      (stmtLike_carry h thenBranch hthen fun id hid => hbranches id (List.mem_append_left _ hid))
      (stmtLike_carry h elseBranch helse fun id hid => hbranches id (List.mem_append_right _ hid))
  | .whileLoop condition body, _, .whileLoop hcondition hbody, hids => by
    rw [Stmt.references] at hids
    exact .whileLoop
      (exprLike_carry h condition hcondition fun id hid => hids id (List.mem_append_left _ hid))
      (stmtLike_carry h body hbody fun id hid => hids id (List.mem_append_right _ hid))
  | .function declaration, _, .function hname hf, _ =>
    .function (by simpa using hname) (functionLike_carry h declaration hf)
  | .return _ _, _, .return hvalue, hids => .return (optionalLike_carry h hvalue hids)
  | .class _ superclass methods, _, .class hfixed hname hsuperclass hmethods, hids => by
    rw [Stmt.references] at hids
    refine .class hfixed (hname.carry h)
      (superclassLike_carry h hsuperclass fun id hid => hids id (List.mem_append_left _ hid)) ?_
    rw [Option.isSome_map]
    exact methodsLike_carry h methods hmethods

theorem functionLike_carry (h : Carries c d f g) {renamings : List Renaming} :
    ∀ (declaration : FunctionDecl) {declaration' : FunctionDecl},
    FunctionLike c renamings declaration declaration' →
    FunctionLike d renamings (declaration.move (.ofLines f)) (declaration'.move (.ofLines g))
  | ⟨_, _, body⟩, _, .mk hπ hname hparams hkept hbody => by
    refine .mk (h.renames _ hπ) (hname.carry h) (namesLike_carry h hparams) ?_
      (statementsLike_carry h body hbody fun id hid => h.agrees (hkept id hid))
    intro id hid
    rw [statementReferences_ofLines] at hid
    exact h.kept id (hkept id hid)

theorem statementsLike_carry (h : Carries c d f g) {renamings : List Renaming} :
    ∀ (body : List Stmt) {body' : List Stmt}, StatementsLike c renamings body body' →
    (∀ id ∈ statementReferences body, Agrees c d id) →
    StatementsLike d renamings (moveStatements (.ofLines f) body)
      (moveStatements (.ofLines g) body')
  | [], _, .nil, _ => .nil
  | s :: rest, _, .cons hs hrest, hids => by
    rw [statementReferences] at hids
    exact .cons (stmtLike_carry h s hs fun id hid => hids id (List.mem_append_left _ hid))
      (statementsLike_carry h rest hrest fun id hid => hids id (List.mem_append_right _ hid))

theorem methodsLike_carry (h : Carries c d f g) {renamings : List Renaming} :
    ∀ (methods : List FunctionDecl) {methods' : List FunctionDecl},
    MethodsLike c renamings methods methods' →
    MethodsLike d renamings (moveMethods (.ofLines f) methods) (moveMethods (.ofLines g) methods')
  | [], _, .nil => .nil
  | method :: rest, _, .cons hmethod hrest =>
    .cons (functionLike_carry h method hmethod) (methodsLike_carry h rest hrest)

end

/-! ### Values and stores -/

variable {w : World}

theorem option_map {α β : Type} {R : α → α → Prop} {S : β → β → Prop} {u v : α → β}
    {a b : Option α} (hRS : ∀ a b, R a b → S (u a) (v b)) (h : Option.Rel R a b) :
    Option.Rel S (a.map u) (b.map v) := by
  cases h with
  | some h => exact .some (hRS _ _ h)
  | none => exact .none

theorem ClosureLike.carry (h : Carries c d f g) {k k' : Closure} (hk : ClosureLike c w k k') :
    ClosureLike d w (k.move f) (k'.move g) := by
  obtain ⟨hframe, hinit, renamings, hchain, hlike⟩ := hk
  exact ⟨hframe, hinit, renamings, hchain, functionLike_carry h _ hlike⟩

theorem MethodLike.carry (h : Carries c d f g) {k k' : Closure} (hk : MethodLike c w k k') :
    MethodLike d w (k.move f) (k'.move g) := by
  obtain ⟨hframe, hinit, renamings, hchain, hlike⟩ := hk
  exact ⟨hframe, hinit, renamings, hchain, functionLike_carry h _ hlike⟩

theorem LayerLike.carry (h : Carries c d f g) {layer layer' : ClassLayer}
    (hl : LayerLike c w layer layer') : LayerLike d w (layer.move f) (layer'.move g) where
  identity := hl.identity
  name := hl.name
  methods name := by
    simp only [ClassLayer.move, Std.ExtTreeMap.getElem?_map]
    exact option_map (fun _ _ hmethod => hmethod.carry h) (hl.methods name)

theorem ClassLike.carry (h : Carries c d f g) {k k' : ClassValue} (hk : ClassLike c w k k') :
    ClassLike d w (k.move f) (k'.move g) where
  own := hk.own.carry h
  ancestors := by
    have hlayers := hk.ancestors
    simp only [ClassValue.move]
    generalize k.ancestors = layers at hlayers
    generalize k'.ancestors = layers' at hlayers
    induction hlayers with
    | nil => exact .nil
    | cons hl _ ih => exact .cons (hl.carry h) ih

theorem ValueLike.carry (h : Carries c d f g) {value value' : Value}
    (hvalue : ValueLike c w value value') : ValueLike d w (value.move f) (value'.move g) := by
  cases hvalue with
  | native which => exact .native which
  | function hk => exact .function (hk.carry h)
  | «class» hk => exact .class (hk.carry h)
  | «instance» ho => exact .instance ⟨ho.index, ho.ofClass.carry h⟩
  | number value => exact .number value
  | string value => exact .string value
  | bool value => exact .bool value
  | nil => exact .nil

theorem StoreLike.carry (h : Carries c d f g) {s s' : Store} (hs : StoreLike c w s s') :
    StoreLike d w (s.move f) (s'.move g) where
  size := by rw [Store.size_move, hs.size]
  size' := by rw [Store.size_move, hs.size']
  first := hs.first
  allowed frame π outer hframe := h.renames π (hs.allowed frame π outer hframe)
  enclosing i := by
    have hsame := hs.enclosing i
    simp only [Store.move, Array.getElem?_map, Option.map_map]
    exact hsame
  links frame π outer hframe := by
    rw [Store.enclosing?_move, Store.enclosing?_move]
    exact hs.links frame π outer hframe
  bound frame π outer hframe name := by
    rw [Store.local?_move, Store.local?_move]
    exact option_map (fun _ _ hvalue => hvalue.carry h) (hs.bound frame π outer hframe name)
  fieldsSize := by simp only [Store.move, Array.size_map, hs.fieldsSize]
  fields o o' ho name := by
    rw [Store.field?_move f s o o rfl, Store.field?_move g s' o' o' rfl]
    exact option_map (fun _ _ hvalue => hvalue.carry h) (hs.fields o o' ho name)

/-- Machines that are alike are so with other tables. -/
theorem MachineLike.carry (h : Carries c d f g) {m m' : Machine} (hm : MachineLike c w m m') :
    MachineLike d w { m.move f with hops := d.left } { m'.move g with hops := d.right } where
  store := hm.store.carry h
  current := hm.current
  hops := rfl
  hops' := rfl
  sink := hm.sink
  identities := hm.identities
  clock := hm.clock

/-- The same on the lines that they are on. -/
theorem MachineLike.retable {c d : Correspondence}
    (h : Carries c d (fun line => line) fun line => line) {m m' : Machine}
    (hm : MachineLike c w m m') :
    MachineLike d w { m with hops := d.left } { m' with hops := d.right } := by
  have hcarried := hm.carry h
  rw [Machine.move_same, Machine.move_same] at hcarried
  exact hcarried

end Carrying

/-! ### Runs that exchange no names -/

/-- All names are the same on both sides. -/
def plain (left right : HopTable) (kept : Nat → Prop) (lines : Nat → Nat → Prop) :
    Correspondence where
  left := left
  right := right
  kept := kept
  lines := lines
  renames := fun π => π = .same
  occurs := fun _ => True
  renames_same := rfl
  renames_this := by
    rintro π rfl
    rfl

theorem carries_plain {left right left' right' : HopTable} {kept kept' : Nat → Prop}
    {lines : Nat → Nat → Prop} (hkept : ∀ id, kept id → kept' id)
    (hleft : ∀ id, kept id → left'[id]? = left[id]?)
    (hright : ∀ id, kept id → right'[id]? = right[id]?) :
    Carries (plain left right kept lines) (plain left' right' kept' lines) (fun line => line)
      fun line => line :=
  ⟨fun _ _ hline => hline, fun _ hπ => hπ, fun _ h => h, hkept, hleft, hright⟩

/-- A new machine holds nothing that could differ. -/
theorem machineLike_initial (c : Correspondence) (outside : Outside) :
    MachineLike c [(.same, none)] { Machine.initial outside with hops := c.left }
      { Machine.initial outside with hops := c.right } := by
  have hempty : StoreLike c [(.same, none)] .initial .initial := by
    refine ⟨rfl, rfl, rfl, ?_, fun _ => rfl, ?_, ?_, rfl, ?_⟩
    · intro f π outer hf
      rcases hindex : f.index with _ | index <;> simp [hindex] at hf
      rw [← hf.1]
      exact c.renames_same
    · intro f π outer hf
      rcases hindex : f.index with _ | index <;> simp [hindex] at hf
      obtain ⟨-, rfl⟩ := hf
      simp [Store.enclosing?, Store.initial, hindex]
    · intro f π outer hf name
      have hnone : ∀ name : String, Store.initial.local? f name = none := by
        intro name
        rcases hindex : f.index with _ | index <;> simp [Store.local?, Store.initial, hindex]
      rw [hnone, hnone]
      exact .none
    · intro o o' _ name
      simp only [Store.field?, Store.initial, List.getElem?_toArray, List.getElem?_nil]
      exact .none
  exact ⟨hempty.define (f := Store.globals) rfl Native.clock.name (.native .clock), rfl, rfl, rfl,
    rfl, rfl, rfl⟩

end Correspondence

end Treewalk
