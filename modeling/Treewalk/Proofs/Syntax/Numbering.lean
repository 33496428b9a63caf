import Treewalk.Proofs.Sequencing
import Treewalk.Proofs.Syntax.References
import Treewalk.Syntax.Parser

/-!
# The numbers that a parser gives

**Every tree that a parser returns is well-formed, and its references have numbers that nothing
had before.**  A parser only ever moves forward: it leaves a final part of its tokens, gives
numbers from the next one on, and adds to the errors.  What it returns is numbered between the
number it started from and the one it leaves.

A tree that is dropped by recovery takes its numbers with it; they are never given again.
-/

namespace Treewalk

/-! ### Moving forward -/

/-- `later` can be reached from `c` by reading tokens, giving numbers and noting errors. -/
structure Cursor.Onward (c later : Cursor) : Prop where
  rest : later.rest <:+ c.rest
  stop : later.stop = c.stop
  nextId : c.nextId ≤ later.nextId
  errors : c.errors <+: later.errors

namespace Cursor.Onward

theorem refl (c : Cursor) : c.Onward c where
  rest := List.suffix_refl _
  stop := rfl
  nextId := Nat.le_refl _
  errors := List.prefix_refl _

theorem trans {c middle later : Cursor} (h : c.Onward middle) (hlater : middle.Onward later) :
    c.Onward later where
  rest := hlater.rest.trans h.rest
  stop := hlater.stop.trans h.stop
  nextId := Nat.le_trans h.nextId hlater.nextId
  errors := h.errors.trans hlater.errors

end Cursor.Onward

/-- The names among the tokens are no reserved words, and the last token is no name. -/
structure Cursor.Lexed (c : Cursor) : Prop where
  rest : ∀ t ∈ c.rest, t.kind = .identifier → IsUnreserved t.lexeme
  stop : c.stop.kind ≠ .identifier

theorem Cursor.Lexed.onward {c later : Cursor} (h : c.Lexed) (hlater : c.Onward later) :
    later.Lexed where
  rest t ht := h.rest t (hlater.rest.subset ht)
  stop := by rw [hlater.stop]; exact h.stop

theorem Cursor.Lexed.next {c : Cursor} (h : c.Lexed) (hkind : c.next.kind = .identifier) :
    IsUnreserved c.next.lexeme := by
  unfold Cursor.next at hkind ⊢
  rcases hrest : c.rest with _ | ⟨t, rest⟩
  · rw [hrest] at hkind
    exact absurd hkind h.stop
  · rw [hrest] at hkind
    exact h.rest t (by rw [hrest]; exact List.mem_cons_self) hkind

theorem TokenKind.eq_identifier_of_sameForm {kind : TokenKind} (h : kind.sameForm .identifier) :
    kind = .identifier := by
  cases kind <;> first | rfl | cases h

namespace Parser

/-- Started at `c`, the parser moves forward, and what it returns fits the cursor it leaves. -/
def Gives {α : Type} (p : Parser α) (c : Cursor) (Q : α → Cursor → Prop) : Prop :=
  match p c with
  | .ok result later => c.Onward later ∧ Q result later
  | .error _ later => c.Onward later

variable {α β : Type} {c : Cursor}

theorem gives_pure {Q : α → Cursor → Prop} {a : α} (h : Q a c) :
    Gives (pure a : Parser α) c Q :=
  ⟨.refl c, h⟩

theorem gives_fail {Q : α → Cursor → Prop} (fault : SyntaxFault) :
    Gives (fail fault : Parser α) c Q :=
  Cursor.Onward.refl c

theorem Gives.bind {p : Parser α} {f : α → Parser β} {Q : α → Cursor → Prop}
    {R : β → Cursor → Prop} (hp : Gives p c Q)
    (hf : ∀ a later, c.Onward later → Q a later → Gives (f a) later R) :
    Gives (p >>= f) c R := by
  unfold Gives at hp ⊢
  rcases hpc : p c with ⟨a, middle⟩ | ⟨e, middle⟩
  · rw [hpc] at hp
    have hfa := hf a middle hp.1 hp.2
    unfold Gives at hfa
    rw [bind_of_ok hpc]
    rcases hfc : f a middle with ⟨b, later⟩ | ⟨e, later⟩
    · rw [hfc] at hfa
      exact ⟨hp.1.trans hfa.1, hfa.2⟩
    · rw [hfc] at hfa
      exact hp.1.trans hfa
  · rw [hpc] at hp
    rw [bind_of_error hpc]
    exact hp

theorem Gives.imp {p : Parser α} {Q R : α → Cursor → Prop} (hp : Gives p c Q)
    (h : ∀ a later, c.Onward later → Q a later → R a later) : Gives p c R := by
  unfold Gives at hp ⊢
  rcases hpc : p c with ⟨a, later⟩ | ⟨e, later⟩
  · rw [hpc] at hp
    exact ⟨hp.1, h a later hp.1 hp.2⟩
  · rw [hpc] at hp
    exact hp

/-! ### Single tokens -/

theorem gives_peek : Gives peek c fun t later => later = c ∧ t = c.next :=
  ⟨.refl c, rfl, rfl⟩

theorem gives_skip : Gives skip c fun _ later => later.nextId = c.nextId :=
  ⟨⟨List.tail_suffix _, rfl, Nat.le_refl _, List.prefix_refl _⟩, rfl⟩

theorem gives_isNext (kind : TokenKind) : Gives (isNext kind) c fun _ later => later = c :=
  ⟨.refl c, rfl⟩

theorem gives_isAtEnd : Gives isAtEnd c fun _ later => later = c :=
  ⟨.refl c, rfl⟩

theorem gives_note (token : Token) (fault : SyntaxFault) :
    Gives (note token fault) c fun _ later => later.nextId = c.nextId :=
  ⟨⟨List.suffix_refl _, rfl, Nat.le_refl _, List.prefix_append _ _⟩, rfl⟩

theorem gives_freshId :
    Gives freshId c fun id later => id = c.nextId ∧ later.nextId = c.nextId + 1 :=
  ⟨⟨List.suffix_refl _, rfl, Nat.le_succ _, List.prefix_refl _⟩, rfl, rfl⟩

theorem gives_accept (kind : TokenKind) :
    Gives (accept kind) c fun t? later => later.nextId = c.nextId
      ∧ ∀ t, t? = some t → t ∈ c.rest ∧ t.kind.sameForm kind := by
  unfold Gives accept
  rcases hrest : c.rest with _ | ⟨t, rest⟩
  · exact ⟨.refl c, rfl, fun _ h => by cases h⟩
  · by_cases hkind : t.kind.sameForm kind
    · simp only [if_pos hkind]
      refine ⟨⟨?_, rfl, Nat.le_refl _, List.prefix_refl _⟩, trivial, ?_⟩
      · rw [hrest]
        exact List.suffix_cons t rest
      · intro t' h
        cases h
        exact ⟨List.mem_cons_self, hkind⟩
    · simp only [if_neg hkind]
      exact ⟨.refl c, trivial, fun _ h => by cases h⟩

theorem gives_expect (kind : TokenKind) (what : Wanted) :
    Gives (expect kind what) c fun t later => later.nextId = c.nextId
      ∧ t ∈ c.rest ∧ t.kind.sameForm kind := by
  refine (gives_accept kind).bind fun t? later _ ⟨hid, ht⟩ => ?_
  rcases t? with _ | t
  · exact gives_fail _
  · exact gives_pure ⟨hid, ht t rfl⟩

theorem gives_expectName (what : Wanted) (hc : c.Lexed) :
    Gives (expectName what) c fun name later => later.nextId = c.nextId
      ∧ IsUnreserved name.text :=
  (gives_expect .identifier what).bind fun t _ _ ⟨hid, ht, hkind⟩ =>
    gives_pure ⟨hid, hc.rest t ht (TokenKind.eq_identifier_of_sameForm hkind)⟩

theorem gives_noteExcess (count : Nat) (fault : SyntaxFault) :
    Gives (noteExcess count fault) c fun _ later => later.nextId = c.nextId := by
  unfold noteExcess
  split
  · refine gives_peek.bind fun t later _ ⟨hlater, _⟩ => ?_
    subst hlater
    exact gives_note t fault
  · exact gives_pure rfl

theorem gives_listBefore {Q : List α → Cursor → Prop} (kind : TokenKind)
    {items : Parser (List α)} (hnil : Q [] c) (hitems : Gives items c Q) :
    Gives (listBefore kind items) c Q := by
  refine (gives_isNext kind).bind fun isNext later _ hlater => ?_
  subst hlater
  cases isNext
  · exact hitems
  · exact gives_pure hnil

/-! ### Expressions -/

/-- The way in which an operator puts two operands together. -/
structure IsJoin (join : Expr → Expr → Expr) : Prop where
  references : ∀ left right, (join left right).references = left.references ++ right.references
  wellFormed : ∀ left right, left.WellFormed → right.WellFormed → (join left right).WellFormed

theorem isJoin_binary (op : BinaryOp) (line : Nat) : IsJoin (.binary op line) where
  references _ _ := by rw [Expr.references]
  wellFormed _ _ hleft hright := by rw [Expr.WellFormed]; exact ⟨hleft, hright⟩

theorem isJoin_logical (op : LogicalOp) (line : Nat) : IsJoin (.logical op line) where
  references _ _ := by rw [Expr.references]
  wellFormed _ _ hleft hright := by rw [Expr.WellFormed]; exact ⟨hleft, hright⟩

theorem Level.isJoin_of_join? {level : Level} {t : Token} {join : Expr → Expr → Expr}
    (h : level.join? t = some join) : IsJoin join := by
  unfold Level.join? at h
  split at h <;> first
    | (cases h; exact isJoin_logical _ _)
    | (cases h; exact isJoin_binary _ _)
    | cases h

theorem gives_acceptJoin (level : Level) :
    Gives (acceptJoin level) c fun join? later => later.nextId = c.nextId
      ∧ ∀ join, join? = some join → IsJoin join := by
  unfold Gives acceptJoin
  rcases hrest : c.rest with _ | ⟨t, rest⟩
  · exact ⟨.refl c, rfl, fun _ h => by cases h⟩
  · rcases hjoin : level.join? t with _ | join
    · simp only [hjoin]
      exact ⟨.refl c, trivial, fun _ h => by cases h⟩
    · simp only [hjoin]
      refine ⟨⟨?_, rfl, Nat.le_refl _, List.prefix_refl _⟩, trivial, ?_⟩
      · rw [hrest]
        exact List.suffix_cons t rest
      · intro join' h
        cases h
        exact Level.isJoin_of_join? hjoin

/-- The expression is well-formed and numbered from `first` up to the cursor. -/
def ExprFrom (first : Nat) (e : Expr) (c : Cursor) : Prop :=
  Numbered first c.nextId e.references ∧ e.WellFormed

theorem ExprFrom.mono {first : Nat} {e : Expr} {later : Cursor} (h : ExprFrom first e c)
    (hlater : c.nextId ≤ later.nextId) : ExprFrom first e later :=
  ⟨h.1.mono (Nat.le_refl _) hlater, h.2⟩

/-- The arguments are well-formed and numbered from `first` up to the cursor. -/
def ArgumentsFrom (first : Nat) (args : List Expr) (c : Cursor) : Prop :=
  Numbered first c.nextId (argumentReferences args) ∧ WellFormedArguments args

mutual

theorem gives_expression : ∀ (steps : Nat) (c : Cursor), c.Lexed →
    Gives (expression steps) c (ExprFrom c.nextId)
  | 0, _, _ => gives_fail _
  | steps + 1, c, hc => by
    rw [expression]
    refine (gives_joined steps Level.all c hc).bind fun target c₁ h₁ htarget => ?_
    refine (gives_accept .equal).bind fun sign? c₂ h₂ ⟨hid₂, _⟩ => ?_
    rcases sign? with _ | sign
    · exact gives_pure (htarget.mono h₂.nextId)
    refine (gives_expression steps c₂ ((hc.onward h₁).onward h₂)).bind fun value c₃ h₃ hvalue => ?_
    have hfrom : c.nextId ≤ c₂.nextId := (h₁.trans h₂).nextId
    cases target
    case «variable» name id =>
      refine gives_freshId.bind fun id' c₄ h₄ ⟨hid', hid₄⟩ => gives_pure ⟨?_, ?_⟩
      · rw [Expr.references, hid', hid₄]
        exact (hvalue.1.mono hfrom (Nat.le_refl _)).append (Numbered.singleton _)
          (Nat.le_trans hfrom h₃.nextId) (Nat.le_succ _)
      · have hname : (Expr.variable name id).WellFormed := htarget.2
        simp only [Expr.WellFormed] at hname ⊢
        exact ⟨hvalue.2, hname⟩
    case get object name =>
      have hobject := htarget
      rw [ExprFrom, Expr.references, Expr.WellFormed] at hobject
      refine gives_pure ⟨?_, ?_⟩
      · rw [Expr.references]
        exact (hobject.1.mono (Nat.le_refl _) h₂.nextId).append hvalue.1 hfrom h₃.nextId
      · rw [Expr.WellFormed]
        exact ⟨hobject.2, hvalue.2⟩
    -- Any other target stays as it is, and the value is dropped.
    all_goals
      exact (gives_note _ _).bind fun _ c₄ h₄ _ =>
        gives_pure (htarget.mono ((h₂.trans h₃).trans h₄).nextId)

theorem gives_joined : ∀ (steps : Nat) (levels : List Level) (c : Cursor), c.Lexed →
    Gives (joined steps levels) c (ExprFrom c.nextId)
  | 0, _, _, _ => gives_fail _
  | steps + 1, [], c, hc => by
    rw [joined]
    exact gives_unary steps c hc
  | steps + 1, level :: tighter, c, hc => by
    rw [joined]
    exact (gives_joined steps tighter c hc).bind fun left c₁ h₁ hleft =>
      gives_joinedFrom steps level tighter left c₁ (hc.onward h₁) h₁.nextId hleft

theorem gives_joinedFrom : ∀ (steps : Nat) (level : Level) (tighter : List Level) (left : Expr)
    {first : Nat} (c : Cursor), c.Lexed → first ≤ c.nextId → ExprFrom first left c →
    Gives (joinedFrom steps level tighter left) c (ExprFrom first)
  | 0, _, _, _, _, _, _, _, _ => gives_fail _
  | steps + 1, level, tighter, left, first, c, hc, hfirst, hleft => by
    rw [joinedFrom]
    refine (gives_acceptJoin level).bind fun join? c₁ h₁ ⟨_, hjoin⟩ => ?_
    rcases join? with _ | join
    · exact gives_pure (hleft.mono h₁.nextId)
    refine (gives_joined steps tighter c₁ (hc.onward h₁)).bind fun right c₂ h₂ hright => ?_
    have hjoin := hjoin join rfl
    refine gives_joinedFrom steps level tighter (join left right) c₂
      ((hc.onward h₁).onward h₂) (Nat.le_trans hfirst (h₁.trans h₂).nextId) ⟨?_, ?_⟩
    · rw [hjoin.references]
      exact (hleft.1.mono (Nat.le_refl _) h₁.nextId).append hright.1
        (Nat.le_trans hfirst h₁.nextId) h₂.nextId
    · exact hjoin.wellFormed left right hleft.2 hright.2

theorem gives_unary : ∀ (steps : Nat) (c : Cursor), c.Lexed →
    Gives (unary steps) c (ExprFrom c.nextId)
  | 0, _, _ => gives_fail _
  | steps + 1, c, hc => by
    rw [unary]
    refine (gives_accept .bang).bind fun bang? c₁ h₁ ⟨hid₁, _⟩ => ?_
    rcases bang? with _ | bang
    · refine (gives_accept .minus).bind fun minus? c₂ h₂ ⟨hid₂, _⟩ => ?_
      have hc₂ := (hc.onward h₁).onward h₂
      rw [← hid₁, ← hid₂]
      rcases minus? with _ | minus
      · exact (gives_primary steps c₂ hc₂).bind fun operand c₃ h₃ hoperand =>
          gives_calls steps operand c₃ (hc₂.onward h₃) h₃.nextId hoperand
      · exact (gives_unary steps c₂ hc₂).bind fun operand c₃ _ hoperand => gives_pure (by
          rw [ExprFrom, Expr.references, Expr.WellFormed]
          exact hoperand)
    · rw [← hid₁]
      exact (gives_unary steps c₁ (hc.onward h₁)).bind fun operand c₂ _ hoperand => gives_pure (by
        rw [ExprFrom, Expr.references, Expr.WellFormed]
        exact hoperand)

theorem gives_calls : ∀ (steps : Nat) (left : Expr) {first : Nat} (c : Cursor), c.Lexed →
    first ≤ c.nextId → ExprFrom first left c → Gives (calls steps left) c (ExprFrom first)
  | 0, _, _, _, _, _, _ => gives_fail _
  | steps + 1, left, first, c, hc, hfirst, hleft => by
    rw [calls]
    refine (gives_accept .leftParen).bind fun paren? c₁ h₁ _ => ?_
    have hc₁ := hc.onward h₁
    rcases paren? with _ | _
    · refine (gives_accept .dot).bind fun dot? c₂ h₂ _ => ?_
      have hc₂ := hc₁.onward h₂
      rcases dot? with _ | _
      · exact gives_pure (hleft.mono (h₁.trans h₂).nextId)
      · refine (gives_expectName _ hc₂).bind fun name c₃ h₃ _ => ?_
        have h := (h₁.trans h₂).trans h₃
        refine gives_calls steps (.get left name) c₃ (hc₂.onward h₃)
          (Nat.le_trans hfirst h.nextId) ?_
        rw [ExprFrom, Expr.references, Expr.WellFormed]
        exact hleft.mono h.nextId
    · have hargs : Gives (arguments steps 0) c₁ (ArgumentsFrom c₁.nextId) :=
        gives_arguments steps 0 c₁ hc₁
      refine (gives_listBefore _ ⟨Numbered.nil _ _, trivial⟩ hargs).bind fun args c₂ h₂ hargs => ?_
      refine (gives_expect _ _).bind fun paren c₃ h₃ _ => ?_
      refine gives_calls steps (.call left paren.line args) c₃ ((hc₁.onward h₂).onward h₃)
        (Nat.le_trans hfirst ((h₁.trans h₂).trans h₃).nextId) ?_
      rw [ExprFrom, Expr.references, Expr.WellFormed]
      refine ⟨?_, hleft.2, hargs.2⟩
      exact ((hleft.1.mono (Nat.le_refl _) h₁.nextId).append hargs.1
        (Nat.le_trans hfirst h₁.nextId) h₂.nextId).mono (Nat.le_refl _) h₃.nextId

theorem gives_arguments : ∀ (steps count : Nat) (c : Cursor), c.Lexed →
    Gives (arguments steps count) c (ArgumentsFrom c.nextId)
  | 0, _, _, _ => gives_fail _
  | steps + 1, count, c, hc => by
    rw [arguments]
    refine (gives_noteExcess count _).bind fun _ c₁ h₁ hid₁ => ?_
    have hc₁ := hc.onward h₁
    rw [← hid₁]
    refine (gives_expression steps c₁ hc₁).bind fun argument c₂ h₂ hargument => ?_
    refine (gives_accept .comma).bind fun comma? c₃ h₃ _ => ?_
    rcases comma? with _ | _
    · refine gives_pure ⟨?_, ?_⟩
      · simp only [argumentReferences, List.append_nil]
        exact hargument.1.mono (Nat.le_refl _) h₃.nextId
      · simp only [WellFormedArguments]
        exact ⟨hargument.2, trivial⟩
    · refine (gives_arguments steps (count + 1) c₃ ((hc₁.onward h₂).onward h₃)).bind
        fun args c₄ h₄ hargs => gives_pure ⟨?_, ?_⟩
      · rw [argumentReferences]
        exact (hargument.1.mono (Nat.le_refl _) h₃.nextId).append hargs.1
          (h₂.trans h₃).nextId h₄.nextId
      · rw [WellFormedArguments]
        exact ⟨hargument.2, hargs.2⟩

theorem gives_primary : ∀ (steps : Nat) (c : Cursor), c.Lexed →
    Gives (primary steps) c (ExprFrom c.nextId)
  | 0, _, _ => gives_fail _
  | steps + 1, c, hc => by
    rw [primary]
    refine gives_peek.bind fun t c₁ _ ⟨hc₁, ht⟩ => ?_
    subst hc₁
    have constant : ∀ value : Literal,
        Gives (do skip; return .literal value) c₁ (ExprFrom c₁.nextId) := fun value =>
      gives_skip.bind fun _ c₂ _ _ => gives_pure (by
        rw [ExprFrom, Expr.references, Expr.WellFormed]
        exact ⟨Numbered.nil _ _, trivial⟩)
    split
    · exact constant _
    · exact constant _
    · exact constant _
    · exact constant _
    · exact constant _
    · refine gives_skip.bind fun _ c₂ h₂ hid₂ => ?_
      refine (gives_expect _ _).bind fun _ c₃ h₃ ⟨hid₃, _⟩ => ?_
      refine (gives_expectName _ ((hc.onward h₂).onward h₃)).bind fun method c₄ _ ⟨hid₄, _⟩ => ?_
      refine gives_freshId.bind fun id c₅ _ ⟨hid, hid₅⟩ => gives_pure ⟨?_, ?_⟩
      · rw [Expr.references, hid, hid₅, ← hid₂, ← hid₃, ← hid₄]
        exact Numbered.singleton _
      · rw [Expr.WellFormed]
        trivial
    · refine gives_skip.bind fun _ c₂ _ hid₂ => ?_
      refine gives_freshId.bind fun id c₃ _ ⟨hid, hid₃⟩ => gives_pure ⟨?_, ?_⟩
      · rw [Expr.references, hid, hid₃, ← hid₂]
        exact Numbered.singleton _
      · rw [Expr.WellFormed]
        trivial
    · rename_i hkind
      refine gives_skip.bind fun _ c₂ _ hid₂ => ?_
      refine gives_freshId.bind fun id c₃ _ ⟨hid, hid₃⟩ => gives_pure ⟨?_, ?_⟩
      · rw [Expr.references, hid, hid₃, ← hid₂]
        exact Numbered.singleton _
      · rw [Expr.WellFormed]
        rw [ht] at hkind ⊢
        exact hc.next hkind
    · refine gives_skip.bind fun _ c₂ h₂ hid₂ => ?_
      rw [← hid₂]
      refine (gives_expression steps c₂ (hc.onward h₂)).bind fun inner c₃ _ hinner => ?_
      refine (gives_expect _ _).bind fun _ c₄ h₄ _ => gives_pure ?_
      rw [ExprFrom, Expr.references, Expr.WellFormed]
      exact hinner.mono h₄.nextId
    · exact gives_fail _

end

/-! ### Statements -/

/-- The statement is well-formed and numbered from `first` up to the cursor. -/
def StmtFrom (first : Nat) (s : Stmt) (c : Cursor) : Prop :=
  Numbered first c.nextId s.references ∧ s.WellFormed

/-- The statements are well-formed and numbered from `first` up to the cursor. -/
def StatementsFrom (first : Nat) (body : List Stmt) (c : Cursor) : Prop :=
  Numbered first c.nextId (statementReferences body) ∧ WellFormedStatements body

/-- The function is well-formed and numbered from `first` up to the cursor. -/
def FunctionFrom (first : Nat) (f : FunctionDecl) (c : Cursor) : Prop :=
  Numbered first c.nextId f.references ∧ f.WellFormed

/-- The methods are well-formed and numbered from `first` up to the cursor. -/
def MethodsFrom (first : Nat) (methods : List FunctionDecl) (c : Cursor) : Prop :=
  Numbered first c.nextId (methodReferences methods) ∧ WellFormedMethods methods

/-- The expression, if there is one, is well-formed and numbered from `first` up to the
    cursor. -/
def OptionalFrom (first : Nat) (value : Option Expr) (c : Cursor) : Prop :=
  Numbered first c.nextId (optionalReferences value) ∧ ∀ e, value = some e → e.WellFormed

theorem optionalFrom_none (first : Nat) (c : Cursor) : OptionalFrom first none c :=
  ⟨Numbered.nil _ _, fun _ h => by cases h⟩

theorem ExprFrom.some {first : Nat} {e : Expr} (h : ExprFrom first e c) :
    OptionalFrom first (some e) c :=
  ⟨h.1, fun _ he => by cases he; exact h.2⟩

theorem boundary_suffix (last : Token) (rest : List Token) : boundary last rest <:+ rest := by
  induction rest generalizing last with
  | nil => exact List.suffix_refl _
  | cons t rest ih =>
    rw [boundary]
    split
    · exact List.suffix_refl _
    · exact (ih t).trans (List.suffix_cons t rest)

theorem resume_suffix (rest : List Token) : resume rest <:+ rest := by
  cases rest with
  | nil => exact List.suffix_refl _
  | cons t rest => exact (boundary_suffix t rest).trans (List.suffix_cons t rest)

theorem gives_recovering {p : Parser α} {Q : α → Cursor → Prop} (hp : Gives p c Q) :
    Gives (recovering p) c fun a? later => ∀ a, a? = some a → Q a later := by
  unfold Gives at hp ⊢
  unfold recovering
  rcases hpc : p c with ⟨a, later⟩ | ⟨e, later⟩
  · rw [hpc] at hp
    refine ⟨hp.1, ?_⟩
    intro a' h
    cases h
    exact hp.2
  · rw [hpc] at hp
    refine ⟨⟨?_, hp.stop, hp.nextId, ?_⟩, fun _ h => by cases h⟩
    · exact (resume_suffix later.rest).trans hp.rest
    · exact hp.errors.trans (List.prefix_append _ _)

theorem gives_expressionBefore (steps : Nat) (kind : TokenKind) (hc : c.Lexed) :
    Gives (expressionBefore steps kind) c (OptionalFrom c.nextId) := by
  refine (gives_isNext kind).bind fun isNext later _ hlater => ?_
  subst hlater
  cases isNext
  · exact (gives_expression steps later hc).bind fun _ _ _ he => gives_pure he.some
  · exact gives_pure (optionalFrom_none _ _)

theorem gives_initializer (steps : Nat) (hc : c.Lexed) :
    Gives (initializer steps) c (OptionalFrom c.nextId) := by
  refine (gives_accept .equal).bind fun sign? c₁ h₁ ⟨hid₁, _⟩ => ?_
  rcases sign? with _ | _
  · exact gives_pure (optionalFrom_none _ _)
  · rw [← hid₁]
    exact (gives_expression steps c₁ (hc.onward h₁)).bind fun _ _ _ he => gives_pure he.some

theorem gives_varDeclaration (steps : Nat) (hc : c.Lexed) :
    Gives (varDeclaration steps) c (StmtFrom c.nextId) := by
  refine (gives_expectName _ hc).bind fun name c₁ h₁ ⟨hid₁, hname⟩ => ?_
  rw [← hid₁]
  refine (gives_initializer steps (hc.onward h₁)).bind fun value c₂ _ hvalue => ?_
  refine (gives_expect _ _).bind fun _ c₃ h₃ _ => gives_pure ?_
  rw [StmtFrom, Stmt.references, Stmt.WellFormed]
  exact ⟨hvalue.1.mono (Nat.le_refl _) h₃.nextId, hname, hvalue.2⟩

/-- A statement that declares nothing. -/
def PlainFrom (first : Nat) (s : Stmt) (c : Cursor) : Prop :=
  StmtFrom first s c ∧ s.isDeclaration = false

theorem gives_expressionStatement (steps : Nat) (hc : c.Lexed) :
    Gives (expressionStatement steps) c (PlainFrom c.nextId) := by
  refine (gives_expression steps c hc).bind fun value c₁ _ hvalue => ?_
  refine (gives_expect _ _).bind fun _ c₂ h₂ _ => gives_pure ⟨?_, rfl⟩
  rw [StmtFrom, Stmt.references, Stmt.WellFormed]
  exact hvalue.mono h₂.nextId

theorem gives_printStatement (steps : Nat) (hc : c.Lexed) :
    Gives (printStatement steps) c (PlainFrom c.nextId) := by
  refine (gives_expression steps c hc).bind fun value c₁ _ hvalue => ?_
  refine (gives_expect _ _).bind fun _ c₂ h₂ _ => gives_pure ⟨?_, rfl⟩
  rw [StmtFrom, Stmt.references, Stmt.WellFormed]
  exact hvalue.mono h₂.nextId

theorem gives_returnStatement (steps line : Nat) (hc : c.Lexed) :
    Gives (returnStatement steps line) c (PlainFrom c.nextId) := by
  refine (gives_expressionBefore steps _ hc).bind fun value c₁ _ hvalue => ?_
  refine (gives_expect _ _).bind fun _ c₂ h₂ _ => gives_pure ⟨?_, rfl⟩
  rw [StmtFrom, Stmt.references, Stmt.WellFormed]
  exact ⟨hvalue.1.mono (Nat.le_refl _) h₂.nextId, hvalue.2⟩

/-- The numbers in the first clause of a `for` statement. -/
def clauseReferences : Option Stmt → List Nat
  | some clause => clause.references
  | none => []

theorem gives_forInitializer (steps : Nat) (hc : c.Lexed) :
    Gives (forInitializer steps) c fun clause? later =>
      Numbered c.nextId later.nextId (clauseReferences clause?)
        ∧ ∀ clause, clause? = some clause → clause.WellFormed := by
  have some_clause : ∀ {s : Stmt} {later : Cursor}, StmtFrom c.nextId s later →
      Numbered c.nextId later.nextId (clauseReferences (some s))
        ∧ ∀ clause, some s = some clause → clause.WellFormed :=
    fun hs => ⟨hs.1, fun _ h => by cases h; exact hs.2⟩
  refine (gives_accept .semicolon).bind fun semicolon? c₁ h₁ ⟨hid₁, _⟩ => ?_
  have hc₁ := hc.onward h₁
  rcases semicolon? with _ | _
  · refine (gives_accept .kwVar).bind fun var? c₂ h₂ ⟨hid₂, _⟩ => ?_
    have hc₂ := hc₁.onward h₂
    rw [← hid₁, ← hid₂] at some_clause ⊢
    rcases var? with _ | _
    · exact (gives_expressionStatement steps hc₂).bind fun _ _ _ hs =>
        gives_pure (some_clause hs.1)
    · exact (gives_varDeclaration steps hc₂).bind fun _ _ _ hs => gives_pure (some_clause hs)
  · exact gives_pure ⟨Numbered.nil _ _, fun _ h => by cases h⟩

theorem references_forLoop (clause : Option Stmt) (condition increment : Option Expr)
    (body : Stmt) : (forLoop clause condition increment body).references =
      clauseReferences clause ++ (optionalReferences condition
        ++ (body.references ++ optionalReferences increment)) := by
  cases clause <;> cases condition <;> cases increment <;>
    simp [forLoop, Stmt.references, statementReferences, Expr.references, clauseReferences,
      optionalReferences]

theorem wellFormed_forLoop {clause : Option Stmt} {condition increment : Option Expr}
    {body : Stmt} (hclause : ∀ s, clause = some s → s.WellFormed)
    (hcondition : ∀ e, condition = some e → e.WellFormed)
    (hincrement : ∀ e, increment = some e → e.WellFormed) (hbody : body.WellFormed)
    (hplain : body.isDeclaration = false) :
    (forLoop clause condition increment body).WellFormed
      ∧ (forLoop clause condition increment body).isDeclaration = false := by
  cases clause <;> cases condition <;> cases increment <;>
    simp_all [forLoop, Stmt.WellFormed, WellFormedStatements, Expr.WellFormed,
      Stmt.isDeclaration]

theorem gives_superclassClause (hc : c.Lexed) :
    Gives superclassClause c fun superclass later =>
      Numbered c.nextId later.nextId (superclassReferences superclass)
        ∧ ∀ parent, superclass = some parent → IsUnreserved parent.name.text := by
  refine (gives_accept .less).bind fun less? c₁ h₁ ⟨hid₁, _⟩ => ?_
  rcases less? with _ | _
  · exact gives_pure ⟨Numbered.nil _ _, fun _ h => by cases h⟩
  · refine (gives_expectName _ (hc.onward h₁)).bind fun name c₂ _ ⟨hid₂, hname⟩ => ?_
    refine gives_freshId.bind fun id c₃ _ ⟨hid, hid₃⟩ => gives_pure ⟨?_, ?_⟩
    · rw [superclassReferences, hid, hid₃, ← hid₁, ← hid₂]
      exact Numbered.singleton _
    · intro parent h
      cases h
      exact hname

theorem gives_parameters : ∀ (steps count : Nat) (c : Cursor), c.Lexed →
    Gives (parameters steps count) c fun params later => later.nextId = c.nextId
      ∧ ∀ param ∈ params, IsUnreserved param.text
  | 0, _, _, _ => gives_fail _
  | steps + 1, count, c, hc => by
    rw [parameters]
    refine (gives_noteExcess count _).bind fun _ c₁ h₁ hid₁ => ?_
    refine (gives_expectName _ (hc.onward h₁)).bind fun name c₂ h₂ ⟨hid₂, hname⟩ => ?_
    refine (gives_accept .comma).bind fun comma? c₃ h₃ ⟨hid₃, _⟩ => ?_
    have hid := hid₃.trans (hid₂.trans hid₁)
    rcases comma? with _ | _
    · refine gives_pure ⟨hid, fun param hparam => ?_⟩
      rw [List.mem_singleton.mp hparam]
      exact hname
    · have hc₃ := ((hc.onward h₁).onward h₂).onward h₃
      refine (gives_parameters steps (count + 1) c₃ hc₃).bind fun params c₄ _ ⟨hid₄, hparams⟩ =>
        gives_pure ⟨hid₄.trans hid, fun param hparam => ?_⟩
      rcases List.mem_cons.mp hparam with rfl | hrest
      · exact hname
      · exact hparams param hrest

mutual

theorem gives_declaration : ∀ (steps : Nat) (c : Cursor), c.Lexed →
    Gives (declaration steps) c (StmtFrom c.nextId)
  | 0, _, _ => gives_fail _
  | steps + 1, c, hc => by
    rw [declaration]
    refine (gives_accept .kwClass).bind fun class? c₁ h₁ ⟨hid₁, _⟩ => ?_
    have hc₁ := hc.onward h₁
    rw [← hid₁]
    rcases class? with _ | _
    · refine (gives_accept .kwFun).bind fun fun? c₂ h₂ ⟨hid₂, _⟩ => ?_
      have hc₂ := hc₁.onward h₂
      rw [← hid₂]
      rcases fun? with _ | _
      · refine (gives_accept .kwVar).bind fun var? c₃ h₃ ⟨hid₃, _⟩ => ?_
        have hc₃ := hc₂.onward h₃
        rw [← hid₃]
        rcases var? with _ | _
        · exact (gives_statement steps c₃ hc₃).imp fun _ _ _ hs => hs.1
        · exact gives_varDeclaration steps hc₃
      · refine (gives_function steps .function c₂ hc₂).bind fun f c₃ _ hf => gives_pure ?_
        rw [StmtFrom, Stmt.references, Stmt.WellFormed]
        exact hf
    · exact gives_classDeclaration steps c₁ hc₁

theorem gives_classDeclaration : ∀ (steps : Nat) (c : Cursor), c.Lexed →
    Gives (classDeclaration steps) c (StmtFrom c.nextId)
  | 0, _, _ => gives_fail _
  | steps + 1, c, hc => by
    rw [classDeclaration]
    refine (gives_expectName _ hc).bind fun name c₁ h₁ ⟨hid₁, hname⟩ => ?_
    have hc₁ := hc.onward h₁
    rw [← hid₁]
    refine (gives_superclassClause hc₁).bind fun superclass c₂ h₂ hsuperclass => ?_
    refine (gives_expect _ _).bind fun _ c₃ h₃ ⟨hid₃, _⟩ => ?_
    refine (gives_methods steps c₃ ((hc₁.onward h₂).onward h₃)).bind fun decls c₄ h₄ hdecls => ?_
    refine (gives_expect _ _).bind fun _ c₅ h₅ _ => gives_pure ?_
    rw [StmtFrom, Stmt.references, Stmt.WellFormed]
    rw [MethodsFrom, hid₃] at hdecls
    refine ⟨?_, hname, hsuperclass.2, hdecls.2⟩
    exact (hsuperclass.1.append hdecls.1 h₂.nextId (h₃.trans h₄).nextId).mono (Nat.le_refl _)
      h₅.nextId

theorem gives_methods : ∀ (steps : Nat) (c : Cursor), c.Lexed →
    Gives (methods steps) c (MethodsFrom c.nextId)
  | 0, _, _ => gives_fail _
  | steps + 1, c, hc => by
    rw [methods]
    refine (gives_isNext _).bind fun closes c₁ _ hc₁ => ?_
    refine gives_isAtEnd.bind fun ends c₂ _ hc₂ => ?_
    subst hc₁ hc₂
    split
    · exact gives_pure ⟨Numbered.nil _ _, trivial⟩
    · refine (gives_function steps .method c₂ hc).bind fun method c₃ h₃ hmethod => ?_
      refine (gives_methods steps c₃ (hc.onward h₃)).bind fun rest c₄ h₄ hrest => gives_pure ?_
      rw [MethodsFrom, methodReferences, WellFormedMethods]
      exact ⟨hmethod.1.append hrest.1 h₃.nextId h₄.nextId, hmethod.2, hrest.2⟩

theorem gives_function : ∀ (steps : Nat) (form : FunctionForm) (c : Cursor), c.Lexed →
    Gives (function steps form) c (FunctionFrom c.nextId)
  | 0, _, _, _ => gives_fail _
  | steps + 1, form, c, hc => by
    rw [function]
    refine (gives_expectName _ hc).bind fun name c₁ h₁ ⟨hid₁, hname⟩ => ?_
    have hc₁ := hc.onward h₁
    refine (gives_expect _ _).bind fun _ c₂ h₂ ⟨hid₂, _⟩ => ?_
    have hc₂ := hc₁.onward h₂
    refine (gives_listBefore _ ⟨rfl, fun _ h => by cases h⟩
      (gives_parameters steps 0 c₂ hc₂)).bind fun params c₃ h₃ ⟨hid₃, hparams⟩ => ?_
    have hc₃ := hc₂.onward h₃
    refine (gives_expect _ _).bind fun _ c₄ h₄ ⟨hid₄, _⟩ => ?_
    have hc₄ := hc₃.onward h₄
    refine (gives_expect _ _).bind fun _ c₅ h₅ ⟨hid₅, _⟩ => ?_
    refine (gives_block steps c₅ (hc₄.onward h₅)).bind fun body c₆ _ hbody => gives_pure ?_
    rw [FunctionFrom, FunctionDecl.references, FunctionDecl.WellFormed]
    rw [hid₅, hid₄, hid₃, hid₂, hid₁] at hbody
    exact ⟨hbody.1, hname, hparams, hbody.2⟩

theorem gives_block : ∀ (steps : Nat) (c : Cursor), c.Lexed →
    Gives (block steps) c (StatementsFrom c.nextId)
  | 0, _, _ => gives_fail _
  | steps + 1, c, hc => by
    rw [block]
    refine (gives_declarations steps true c hc).bind fun body c₁ _ hbody => ?_
    refine (gives_expect _ _).bind fun _ c₂ h₂ _ => gives_pure ?_
    exact ⟨hbody.1.mono (Nat.le_refl _) h₂.nextId, hbody.2⟩

theorem gives_declarations : ∀ (steps : Nat) (inBlock : Bool) (c : Cursor), c.Lexed →
    Gives (declarations steps inBlock) c (StatementsFrom c.nextId)
  | 0, _, _, _ => gives_fail _
  | steps + 1, inBlock, c, hc => by
    rw [declarations]
    refine (gives_isNext _).bind fun closes c₁ _ hc₁ => ?_
    refine gives_isAtEnd.bind fun ends c₂ _ hc₂ => ?_
    subst hc₁ hc₂
    split
    · exact gives_pure ⟨Numbered.nil _ _, trivial⟩
    · refine (gives_recovering (gives_declaration steps c₂ hc)).bind fun first c₃ h₃ hfirst => ?_
      refine (gives_declarations steps inBlock c₃ (hc.onward h₃)).bind
        fun others c₄ h₄ hothers => gives_pure ?_
      rcases first with _ | first
      · exact ⟨hothers.1.mono h₃.nextId (Nat.le_refl _), hothers.2⟩
      · have hfirst := hfirst first rfl
        simp only [Option.toList_some, List.singleton_append, StatementsFrom,
          statementReferences, WellFormedStatements]
        exact ⟨hfirst.1.append hothers.1 h₃.nextId h₄.nextId, hfirst.2, hothers.2⟩

theorem gives_statement : ∀ (steps : Nat) (c : Cursor), c.Lexed →
    Gives (statement steps) c (PlainFrom c.nextId)
  | 0, _, _ => gives_fail _
  | steps + 1, c, hc => by
    rw [statement]
    refine gives_peek.bind fun t c₁ _ ⟨hc₁, _⟩ => ?_
    subst hc₁
    have skipping : ∀ {p : Parser Stmt},
        (∀ later : Cursor, later.Lexed → Gives p later (PlainFrom later.nextId)) →
        Gives (do skip; p) c₁ (PlainFrom c₁.nextId) := fun hp =>
      gives_skip.bind fun _ c₂ h₂ hid₂ => hid₂ ▸ hp c₂ (hc.onward h₂)
    split
    · exact skipping (gives_forStatement steps)
    · exact skipping (gives_ifStatement steps)
    · exact skipping fun _ => gives_printStatement steps
    · exact skipping fun _ => gives_returnStatement steps _
    · exact skipping (gives_whileStatement steps)
    · refine skipping fun later hlater => ?_
      refine (gives_block steps later hlater).bind fun body c₂ _ hbody => gives_pure ⟨?_, rfl⟩
      rw [StmtFrom, Stmt.references, Stmt.WellFormed]
      exact hbody
    · exact gives_expressionStatement steps hc

theorem gives_forStatement : ∀ (steps : Nat) (c : Cursor), c.Lexed →
    Gives (forStatement steps) c (PlainFrom c.nextId)
  | 0, _, _ => gives_fail _
  | steps + 1, c, hc => by
    rw [forStatement]
    refine (gives_expect _ _).bind fun _ c₁ h₁ ⟨hid₁, _⟩ => ?_
    have hc₁ := hc.onward h₁
    rw [← hid₁]
    refine (gives_forInitializer steps hc₁).bind fun clause c₂ h₂ hclause => ?_
    have hc₂ := hc₁.onward h₂
    refine (gives_expressionBefore steps _ hc₂).bind fun condition c₃ h₃ hcondition => ?_
    have hc₃ := hc₂.onward h₃
    refine (gives_expect _ _).bind fun _ c₄ h₄ _ => ?_
    have hc₄ := hc₃.onward h₄
    refine (gives_expressionBefore steps _ hc₄).bind fun increment c₅ h₅ hincrement => ?_
    have hc₅ := hc₄.onward h₅
    refine (gives_expect _ _).bind fun _ c₆ h₆ _ => ?_
    refine (gives_statement steps c₆ (hc₅.onward h₆)).bind fun body c₇ h₇ hbody => gives_pure ?_
    have hwell := wellFormed_forLoop hclause.2 hcondition.2 hincrement.2 hbody.1.2 hbody.2
    refine ⟨⟨?_, hwell.1⟩, hwell.2⟩
    rw [references_forLoop]
    -- The increment was read before the body.
    have htail := (hincrement.1.mono (Nat.le_refl _) h₆.nextId).append hbody.1.1
      (h₅.trans h₆).nextId h₇.nextId
    have hmiddle := (hcondition.1.mono (Nat.le_refl _) h₄.nextId).append htail.swap
      (h₃.trans h₄).nextId ((h₅.trans h₆).trans h₇).nextId
    exact hclause.1.append hmiddle h₂.nextId ((h₃.trans h₄).trans ((h₅.trans h₆).trans h₇)).nextId

theorem gives_ifStatement : ∀ (steps : Nat) (c : Cursor), c.Lexed →
    Gives (ifStatement steps) c (PlainFrom c.nextId)
  | 0, _, _ => gives_fail _
  | steps + 1, c, hc => by
    rw [ifStatement]
    refine (gives_expect _ _).bind fun _ c₁ h₁ ⟨hid₁, _⟩ => ?_
    have hc₁ := hc.onward h₁
    rw [← hid₁]
    refine (gives_expression steps c₁ hc₁).bind fun condition c₂ h₂ hcondition => ?_
    have hc₂ := hc₁.onward h₂
    refine (gives_expect _ _).bind fun _ c₃ h₃ _ => ?_
    have hc₃ := hc₂.onward h₃
    refine (gives_statement steps c₃ hc₃).bind fun thenBranch c₄ h₄ hthen => ?_
    have hc₄ := hc₃.onward h₄
    have hcondition' := hcondition.1.mono (Nat.le_refl _) h₃.nextId
    refine (gives_accept .kwElse).bind fun else? c₅ h₅ _ => ?_
    rcases else? with _ | _
    · refine gives_pure ⟨?_, rfl⟩
      rw [StmtFrom, Stmt.references, Stmt.WellFormed]
      refine ⟨?_, hcondition.2, hthen.1.2, hthen.2⟩
      exact (hcondition'.append hthen.1.1 (h₂.trans h₃).nextId h₄.nextId).mono (Nat.le_refl _)
        h₅.nextId
    · refine (gives_statement steps c₅ (hc₄.onward h₅)).bind fun elseBranch c₆ h₆ helse =>
        gives_pure ⟨?_, rfl⟩
      rw [StmtFrom, Stmt.references, Stmt.WellFormed]
      refine ⟨?_, hcondition.2, ⟨hthen.1.2, hthen.2⟩, helse.1.2, helse.2⟩
      exact hcondition'.append ((hthen.1.1.mono (Nat.le_refl _) h₅.nextId).append helse.1.1
        (h₄.trans h₅).nextId h₆.nextId) (h₂.trans h₃).nextId ((h₄.trans h₅).trans h₆).nextId

theorem gives_whileStatement : ∀ (steps : Nat) (c : Cursor), c.Lexed →
    Gives (whileStatement steps) c (PlainFrom c.nextId)
  | 0, _, _ => gives_fail _
  | steps + 1, c, hc => by
    rw [whileStatement]
    refine (gives_expect _ _).bind fun _ c₁ h₁ ⟨hid₁, _⟩ => ?_
    have hc₁ := hc.onward h₁
    rw [← hid₁]
    refine (gives_expression steps c₁ hc₁).bind fun condition c₂ h₂ hcondition => ?_
    have hc₂ := hc₁.onward h₂
    refine (gives_expect _ _).bind fun _ c₃ h₃ _ => ?_
    refine (gives_statement steps c₃ (hc₂.onward h₃)).bind fun body c₄ h₄ hbody =>
      gives_pure ⟨?_, rfl⟩
    rw [StmtFrom, Stmt.references, Stmt.WellFormed]
    exact ⟨(hcondition.1.mono (Nat.le_refl _) h₃.nextId).append hbody.1.1 (h₂.trans h₃).nextId
      h₄.nextId, hcondition.2, hbody.1.2, hbody.2⟩

end

theorem gives_wholeExpression (steps : Nat) (hc : c.Lexed) :
    Gives (wholeExpression steps) c (ExprFrom c.nextId) := by
  refine (gives_expression steps c hc).bind fun value c₁ _ hvalue => ?_
  refine gives_isAtEnd.bind fun ends c₂ _ hc₂ => ?_
  subst hc₂
  split
  · exact gives_pure hvalue
  · exact gives_fail _

end Parser

/-! ### Whole sources -/

/-- What holds of the results of a parser holds of what a run of it leaves. -/
theorem Cursor.run_of_gives {α : Type} {c : Cursor} {p : Parser α} {Q : α → Cursor → Prop}
    (hp : Parser.Gives p { c with errors := [] } Q) :
    c.nextId ≤ (c.run p).2.2.nextId
      ∧ ∀ a, (c.run p).1 = some a → ∃ later, Q a later ∧ (c.run p).2.2.nextId = later.nextId := by
  unfold Parser.Gives at hp
  unfold Cursor.run
  rcases hpc : p { c with errors := [] } with ⟨a, later⟩ | ⟨e, later⟩
  · rw [hpc] at hp
    refine ⟨hp.1.nextId, fun a' h => ⟨later, ?_, rfl⟩⟩
    cases h
    exact hp.2
  · rw [hpc] at hp
    exact ⟨hp.nextId, fun _ h => by cases h⟩

/-- A program is well-formed, and its references have numbers from the first on that the cursor
    gives, all different. -/
theorem Cursor.program_numbered {c : Cursor} (hc : c.Lexed) :
    c.nextId ≤ c.program.2.2.nextId
      ∧ Numbered c.nextId c.program.2.2.nextId (statementReferences c.program.1)
      ∧ WellFormedStatements c.program.1 := by
  have hc' : Cursor.Lexed { c with errors := [] } := ⟨hc.rest, hc.stop⟩
  have h := Cursor.run_of_gives (Parser.gives_declarations c.steps false _ hc')
  unfold Cursor.program
  rcases hrun : c.run (Parser.declarations c.steps false) with ⟨_ | statements, errors, later⟩
  · rw [hrun] at h
    exact ⟨h.1, Numbered.nil _ _, trivial⟩
  · rw [hrun] at h
    obtain ⟨at_, hstatements, hid⟩ := h.2 statements rfl
    refine ⟨h.1, ?_, hstatements.2⟩
    simp only at hid
    rw [hid]
    exact hstatements.1

/-- A single expression is well-formed, and its references are numbered as in a program. -/
theorem Cursor.expression_numbered {c : Cursor} (hc : c.Lexed) :
    c.nextId ≤ c.expression.2.2.nextId
      ∧ ∀ e, c.expression.1 = some e →
        Numbered c.nextId c.expression.2.2.nextId e.references ∧ e.WellFormed := by
  have hc' : Cursor.Lexed { c with errors := [] } := ⟨hc.rest, hc.stop⟩
  have h := Cursor.run_of_gives (Parser.gives_wholeExpression c.steps hc')
  refine ⟨h.1, fun e he => ?_⟩
  obtain ⟨later, hexpr, hid⟩ := h.2 e he
  unfold Cursor.expression
  rw [hid]
  exact hexpr

end Treewalk
