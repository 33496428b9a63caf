import Treewalk.Proofs.Syntax.Places

/-!
# The order in which a parser finds errors

**A parser finds errors in the order of the tokens that they are about, and puts the sites of binding
errors into its trees in that order, except for what comes late.**  This holds of every rule of the
grammar, wherever it starts and whether it is stopped or not; recovery only passes over tokens.
-/

namespace Treewalk

namespace Parser

variable {α β : Type} {c : Cursor}

/-- Started at `c`, the parser finds errors in order, and what it returns fits the cursor it leaves. -/
def Orderly (p : Parser α) (c : Cursor) (Q : α → Cursor → Prop) : Prop :=
  match p c with
  | .ok result later => c.Notes later [] ∧ Q result later
  | .error e later => c.Notes later [e]

/-! ### Parsers in sequence -/

theorem orderly_pure {Q : α → Cursor → Prop} (hc : c.Rising) {a : α} (h : Q a c) :
    Orderly (pure a : Parser α) c Q :=
  ⟨.quiet hc (.refl c) rfl, h⟩

theorem orderly_fail {Q : α → Cursor → Prop} (hc : c.Rising) (fault : SyntaxFault) :
    Orderly (fail fault : Parser α) c Q :=
  Cursor.Notes.stopped hc fault

/-- The rest of a parser whose first part has run. -/
theorem Orderly.of_ok {p : Parser α} {f : α → Parser β} {R : β → Cursor → Prop} {a : α}
    {middle : Cursor} (hp : p c = .ok a middle) (hnotes : c.Notes middle [])
    (hf : Orderly (f a) middle R) : Orderly (p >>= f) c R := by
  unfold Orderly at hf ⊢
  rw [bind_of_ok hp]
  rcases hfc : f a middle with ⟨b, later⟩ | ⟨e, later⟩ <;> rw [hfc] at hf
  · exact ⟨hnotes.trans hf.1, hf.2⟩
  · exact hnotes.trans hf

theorem Orderly.of_error {p : Parser α} {f : α → Parser β} {R : β → Cursor → Prop}
    {e : SyntaxError} {later : Cursor} (hp : p c = .error e later) (hnotes : c.Notes later [e]) :
    Orderly (p >>= f) c R := by
  unfold Orderly
  rw [bind_of_error hp]
  exact hnotes

theorem Orderly.bind {p : Parser α} {f : α → Parser β} {Q : α → Cursor → Prop}
    {R : β → Cursor → Prop} (hp : Orderly p c Q)
    (hf : ∀ a later, later.Rising → Q a later → Orderly (f a) later R) : Orderly (p >>= f) c R := by
  unfold Orderly at hp
  rcases hpc : p c with ⟨a, middle⟩ | ⟨e, middle⟩ <;> rw [hpc] at hp
  · exact .of_ok hpc hp.1 (hf a middle (hp.1.rising.onward hp.1.onward) hp.2)
  · exact .of_error hpc hp

theorem Orderly.imp {p : Parser α} {Q R : α → Cursor → Prop} (hp : Orderly p c Q)
    (h : ∀ a later, Q a later → R a later) : Orderly p c R := by
  unfold Orderly at hp ⊢
  rcases hpc : p c with ⟨a, later⟩ | ⟨e, later⟩ <;> rw [hpc] at hp
  · exact ⟨hp.1, h a later hp.2⟩
  · exact hp

/-- What is returned comes from a run of the parser. -/
theorem Orderly.with_run {p : Parser α} {Q : α → Cursor → Prop} (hp : Orderly p c Q) :
    Orderly p c fun a later => p c = .ok a later ∧ Q a later := by
  unfold Orderly at hp ⊢
  rcases hpc : p c with ⟨a, later⟩ | ⟨e, later⟩ <;> rw [hpc] at hp
  · exact ⟨hp.1, rfl, hp.2⟩
  · exact hp

/-! ### Single tokens -/

/-- A parser that moves forward without noting an error. -/
theorem orderly_of_quiet {p : Parser α} {Q : α → Cursor → Prop} (hc : c.Rising) {a : α}
    {later : Cursor} (hrun : p c = .ok a later) (h : c.Onward later) (herrors : later.errors = c.errors)
    (hQ : Q a later) : Orderly p c Q := by
  unfold Orderly
  rw [hrun]
  exact ⟨.quiet hc h herrors, hQ⟩

theorem orderly_peek (hc : c.Rising) : Orderly peek c fun t later => t = c.next ∧ later = c :=
  orderly_of_quiet hc rfl (.refl c) rfl ⟨rfl, rfl⟩

theorem onward_skip (c : Cursor) : c.Onward { c with rest := c.rest.tail } :=
  ⟨List.tail_suffix _, rfl, Nat.le_refl _, List.prefix_refl _⟩

theorem orderly_skip (hc : c.Rising) :
    Orderly skip c fun _ later => c.Onward later ∧ later.rest = c.rest.tail :=
  orderly_of_quiet hc rfl (onward_skip c) rfl ⟨onward_skip c, rfl⟩

theorem orderly_isNext (hc : c.Rising) (kind : TokenKind) :
    Orderly (isNext kind) c fun _ later => later = c :=
  orderly_of_quiet hc rfl (.refl c) rfl rfl

theorem orderly_isAtEnd (hc : c.Rising) : Orderly isAtEnd c fun _ later => later = c :=
  orderly_of_quiet hc rfl (.refl c) rfl rfl

theorem orderly_freshId (hc : c.Rising) : Orderly freshId c fun _ later => c.Onward later :=
  have honward : c.Onward { c with nextId := c.nextId + 1 } :=
    ⟨List.suffix_refl _, rfl, Nat.le_succ _, List.prefix_refl _⟩
  orderly_of_quiet hc rfl honward rfl honward

/-- A token is accepted or left. -/
theorem accept_cases (kind : TokenKind) (c : Cursor) : accept kind c = .ok none c
    ∨ ∃ t rest, c.rest = t :: rest ∧ accept kind c = .ok (some t) { c with rest } := by
  rcases hrest : c.rest with _ | ⟨t, rest⟩
  · exact Or.inl (accept_of_nil hrest kind)
  · by_cases hkind : t.kind.sameForm kind = true
    · exact Or.inr ⟨t, rest, rfl, accept_of_sameForm hrest hkind⟩
    · exact Or.inl (accept_of_not_sameForm hrest hkind)

theorem orderly_accept (hc : c.Rising) (kind : TokenKind) :
    Orderly (accept kind) c fun t? later => c.Onward later ∧ ∀ t, t? = some t → t = c.next := by
  rcases accept_cases kind c with haccept | ⟨t, rest, hrest, haccept⟩
  · exact orderly_of_quiet hc haccept (.refl c) rfl ⟨.refl c, fun _ h => by cases h⟩
  · refine orderly_of_quiet hc haccept (onward_cons hrest) rfl ⟨onward_cons hrest, fun t' h => ?_⟩
    cases h
    rw [Cursor.next, hrest]
    rfl

theorem orderly_expect (hc : c.Rising) (kind : TokenKind) (what : Wanted) :
    Orderly (expect kind what) c fun t later => c.Onward later ∧ t = c.next := by
  refine (orderly_accept hc kind).bind fun t? c₁ hc₁ ⟨h₁, ht⟩ => ?_
  rcases t? with _ | t
  · exact orderly_fail hc₁ _
  · exact orderly_pure hc₁ ⟨h₁, ht t rfl⟩

theorem orderly_expectName (hc : c.Rising) (what : Wanted) :
    Orderly (expectName what) c fun name later => c.Covers later [name] :=
  (orderly_expect hc .identifier what).bind fun t c₁ hc₁ ⟨h₁, ht⟩ =>
    orderly_pure hc₁ (.single hc h₁ (by rw [ht]; exact ⟨rfl, rfl⟩))

theorem orderly_noteExcess (hc : c.Rising) (count : Nat) (fault : SyntaxFault) :
    Orderly (noteExcess count fault) c fun _ later => c.Onward later := by
  unfold noteExcess
  split
  · refine (orderly_peek hc).bind fun t c₁ hc₁ h₁ => ?_
    obtain ⟨rfl, rfl⟩ := h₁
    exact ⟨(Cursor.Notes.stopped hc fault).note, c₁.onward_note _⟩
  · exact orderly_pure hc (.refl c)

/-- A list in front of a token that closes it. -/
theorem orderly_listBefore {sites : List α → List Name} (hnil : sites [] = []) (hc : c.Rising)
    (kind : TokenKind) {items : Parser (List α)}
    (h : Orderly items c fun list later => c.Covers later (sites list)) :
    Orderly (listBefore kind items) c fun list later => c.Covers later (sites list) := by
  refine (orderly_isNext hc kind).bind fun isNext c₁ hc₁ h₁ => ?_
  subst h₁
  cases isNext
  · exact h
  · exact orderly_pure hc (by rw [hnil]; exact .nil hc (.refl _))

theorem Level.sites_join {level : Level} {t : Token} {join : Expr → Expr → Expr}
    (h : level.join? t = some join) (left right : Expr) :
    (join left right).sites = left.sites ++ right.sites := by
  unfold Level.join? at h
  split at h <;> cases h <;> rfl

theorem orderly_acceptJoin (hc : c.Rising) (level : Level) :
    Orderly (acceptJoin level) c fun join? later => c.Onward later ∧ ∀ join, join? = some join →
      ∀ left right, (join left right).sites = left.sites ++ right.sites := by
  rcases hrest : c.rest with _ | ⟨t, rest⟩
  · have hrun : acceptJoin level c = .ok none c := by simp only [acceptJoin, hrest]
    exact orderly_of_quiet hc hrun (.refl c) rfl ⟨.refl c, fun _ h => by cases h⟩
  · rcases hjoin : level.join? t with _ | join
    · have hrun : acceptJoin level c = .ok none c := by simp only [acceptJoin, hrest, hjoin]
      exact orderly_of_quiet hc hrun (.refl c) rfl ⟨.refl c, fun _ h => by cases h⟩
    · have hrun : acceptJoin level c = .ok (some join) { c with rest } := by
        simp only [acceptJoin, hrest, hjoin]
      refine orderly_of_quiet hc hrun (onward_cons hrest) rfl ⟨onward_cons hrest, fun join' h => ?_⟩
      cases h
      exact Level.sites_join hjoin

/-! ### Expressions -/

mutual

theorem orderly_expression : ∀ (steps : Nat) {c : Cursor}, c.Rising →
    Orderly (expression steps) c fun e later => c.Covers later e.sites
  | 0, _, hc => orderly_fail hc _
  | steps + 1, c, hc => by
    rw [expression]
    refine (orderly_joined steps Level.all hc).bind fun target c₁ hc₁ htarget => ?_
    rcases accept_cases .equal c₁ with haccept | ⟨sign, rest, hrest, haccept⟩
    · exact .of_ok haccept (.quiet hc₁ (.refl c₁) rfl) (orderly_pure hc₁ htarget)
    · have hsign := onward_cons hrest
      have hquiet : c₁.Notes { c₁ with rest } [] := .quiet hc₁ hsign rfl
      have hvalue := orderly_expression steps (hc₁.onward hsign)
      unfold Orderly at hvalue
      rcases hrun : expression steps { c₁ with rest } with ⟨value, c₂⟩ | ⟨e, c₂⟩ <;>
        rw [hrun] at hvalue
      · obtain ⟨hnotes, hcovers⟩ := hvalue
        have hc₂ := hcovers.rising.onward hcovers.onward
        have hread : c.Covers c₂ (target.sites ++ value.sites) :=
          htarget.append (.behind hc₁ hsign hcovers)
        cases target with
        | «variable» name id =>
          refine .of_ok haccept hquiet (.of_ok hrun hnotes ?_)
          refine (orderly_freshId hc₂).bind fun id c₃ hc₃ h₃ => orderly_pure hc₃ ?_
          -- The name of the target is no site any more.
          exact (hread.before h₃).sublist (List.sublist_append_right _ _)
        | get object name =>
          exact .of_ok haccept hquiet (.of_ok hrun hnotes (orderly_pure hc₂ hread))
        | _ =>
          -- The value is left out of the tree, and the error goes back behind its sign: so the two
          -- parts cannot be put together by the rule for parsers in sequence.
          unfold Orderly
          rw [bind_of_ok haccept]
          dsimp only
          rw [bind_of_ok hrun]
          have htarget' := htarget.before (hsign.trans hcovers.onward)
          exact ⟨.noTarget hc₁ hrest hnotes hrun, htarget'.before (c₂.onward_note _)⟩
      · exact .of_ok haccept hquiet (.of_error hrun hvalue)

theorem orderly_joined : ∀ (steps : Nat) (levels : List Level) {c : Cursor}, c.Rising →
    Orderly (joined steps levels) c fun e later => c.Covers later e.sites
  | 0, _, _, hc => orderly_fail hc _
  | steps + 1, [], _, hc => by
    rw [joined]
    exact orderly_unary steps hc
  | steps + 1, level :: tighter, _, hc => by
    rw [joined]
    exact (orderly_joined steps tighter hc).bind fun left c₁ hc₁ hleft =>
      orderly_joinedFrom steps level tighter hc₁ hleft

theorem orderly_joinedFrom : ∀ (steps : Nat) (level : Level) (tighter : List Level) {left : Expr}
    {start c : Cursor}, c.Rising → start.Covers c left.sites →
    Orderly (joinedFrom steps level tighter left) c fun e later => start.Covers later e.sites
  | 0, _, _, _, _, _, hc, _ => orderly_fail hc _
  | steps + 1, level, tighter, left, start, c, hc, hleft => by
    rw [joinedFrom]
    refine (orderly_acceptJoin hc level).bind fun join? c₁ hc₁ ⟨h₁, hjoin⟩ => ?_
    rcases join? with _ | join
    · exact orderly_pure hc₁ (hleft.before h₁)
    · refine (orderly_joined steps tighter hc₁).bind fun right c₂ hc₂ hright => ?_
      refine orderly_joinedFrom steps level tighter hc₂ ?_
      rw [hjoin join rfl]
      exact (hleft.before h₁).append hright

theorem orderly_unary : ∀ (steps : Nat) {c : Cursor}, c.Rising →
    Orderly (unary steps) c fun e later => c.Covers later e.sites
  | 0, _, hc => orderly_fail hc _
  | steps + 1, c, hc => by
    rw [unary]
    refine (orderly_accept hc .bang).bind fun bang? c₁ hc₁ ⟨h₁, _⟩ => ?_
    rcases bang? with _ | bang
    · refine (orderly_accept hc₁ .minus).bind fun minus? c₂ hc₂ ⟨h₂, _⟩ => ?_
      rcases minus? with _ | minus
      · refine (orderly_primary steps hc₂).bind fun operand c₃ hc₃ h₃ => ?_
        exact orderly_calls steps hc₃ (.behind hc (h₁.trans h₂) h₃)
      · refine (orderly_unary steps hc₂).bind fun operand c₃ hc₃ h₃ => ?_
        exact orderly_pure hc₃ (.behind hc (h₁.trans h₂) h₃)
    · refine (orderly_unary steps hc₁).bind fun operand c₂ hc₂ h₂ => ?_
      exact orderly_pure hc₂ (.behind hc h₁ h₂)

theorem orderly_calls : ∀ (steps : Nat) {left : Expr} {start c : Cursor}, c.Rising →
    start.Covers c left.sites →
    Orderly (calls steps left) c fun e later => start.Covers later e.sites
  | 0, _, _, _, hc, _ => orderly_fail hc _
  | steps + 1, left, start, c, hc, hleft => by
    rw [calls]
    refine (orderly_accept hc .leftParen).bind fun paren? c₁ hc₁ ⟨h₁, _⟩ => ?_
    rcases paren? with _ | paren
    · refine (orderly_accept hc₁ .dot).bind fun dot? c₂ hc₂ ⟨h₂, _⟩ => ?_
      rcases dot? with _ | dot
      · exact orderly_pure hc₂ (hleft.before (h₁.trans h₂))
      · refine (orderly_expectName hc₂ _).bind fun name c₃ hc₃ h₃ => ?_
        exact orderly_calls steps hc₃ (hleft.before ((h₁.trans h₂).trans h₃.onward))
    · refine (orderly_listBefore rfl hc₁ .rightParen (orderly_arguments steps 0 hc₁)).bind
        fun args c₂ hc₂ hargs => ?_
      refine (orderly_expect hc₂ _ _).bind fun closing c₃ hc₃ ⟨h₃, _⟩ => ?_
      exact orderly_calls steps hc₃ (((hleft.before h₁).append hargs).before h₃)

theorem orderly_arguments : ∀ (steps count : Nat) {c : Cursor}, c.Rising →
    Orderly (arguments steps count) c fun args later => c.Covers later (argumentSites args)
  | 0, _, _, hc => orderly_fail hc _
  | steps + 1, count, c, hc => by
    rw [arguments]
    refine (orderly_noteExcess hc count _).bind fun _ c₁ hc₁ h₁ => ?_
    refine (orderly_expression steps hc₁).bind fun argument c₂ hc₂ h₂ => ?_
    refine (orderly_accept hc₂ .comma).bind fun comma? c₃ hc₃ ⟨h₃, _⟩ => ?_
    have hfirst := (Cursor.Covers.behind hc h₁ h₂).before h₃
    rcases comma? with _ | comma
    · refine orderly_pure hc₃ ?_
      simp only [argumentSites, List.append_nil]
      exact hfirst
    · refine (orderly_arguments steps (count + 1) hc₃).bind fun args c₄ hc₄ h₄ => ?_
      exact orderly_pure hc₄ (hfirst.append h₄)

theorem orderly_primary : ∀ (steps : Nat) {c : Cursor}, c.Rising →
    Orderly (primary steps) c fun e later => c.Covers later e.sites
  | 0, _, hc => orderly_fail hc _
  | steps + 1, c, hc => by
    rw [primary]
    refine (orderly_peek hc).bind fun t c₁ hc₁ h₁ => ?_
    obtain ⟨rfl, rfl⟩ := h₁
    have hliteral : ∀ value : Literal, Orderly (do skip; return Expr.literal value) c₁
        fun e later => c₁.Covers later e.sites := fun value =>
      (orderly_skip hc).bind fun _ c₂ hc₂ ⟨h₂, _⟩ => orderly_pure hc₂ (.nil hc h₂)
    split
    · exact hliteral _
    · exact hliteral _
    · exact hliteral _
    · exact hliteral _
    · exact hliteral _
    · rename_i hkind
      refine (orderly_skip hc).bind fun _ c₂ hc₂ ⟨h₂, _⟩ => ?_
      refine (orderly_expect hc₂ _ _).bind fun _ c₃ hc₃ ⟨h₃, _⟩ => ?_
      refine (orderly_expectName hc₃ _).bind fun method c₄ hc₄ h₄ => ?_
      refine (orderly_freshId hc₄).bind fun id c₅ hc₅ h₅ => orderly_pure hc₅ ?_
      refine .single hc (((h₂.trans h₃).trans h₄.onward).trans h₅) (hc.writes ?_)
      rw [hkind]
      simp [TokenKind.reserved]
    · rename_i hkind
      refine (orderly_skip hc).bind fun _ c₂ hc₂ ⟨h₂, _⟩ => ?_
      refine (orderly_freshId hc₂).bind fun id c₃ hc₃ h₃ => orderly_pure hc₃ ?_
      refine .single hc (h₂.trans h₃) (hc.writes ?_)
      rw [hkind]
      simp [TokenKind.reserved]
    · refine (orderly_skip hc).bind fun _ c₂ hc₂ ⟨h₂, _⟩ => ?_
      refine (orderly_freshId hc₂).bind fun id c₃ hc₃ h₃ => orderly_pure hc₃ ?_
      exact .single hc (h₂.trans h₃) ⟨rfl, rfl⟩
    · refine (orderly_skip hc).bind fun _ c₂ hc₂ ⟨h₂, _⟩ => ?_
      refine (orderly_expression steps hc₂).bind fun inner c₃ hc₃ h₃ => ?_
      refine (orderly_expect hc₃ _ _).bind fun _ c₄ hc₄ ⟨h₄, _⟩ => orderly_pure hc₄ ?_
      exact (Cursor.Covers.behind hc h₂ h₃).before h₄
    · exact orderly_fail hc _

end

/-! ### Parts of statements -/

theorem orderly_parameters : ∀ (steps count : Nat) {c : Cursor}, c.Rising →
    Orderly (parameters steps count) c fun params later => c.Covers later params
  | 0, _, _, hc => orderly_fail hc _
  | steps + 1, count, c, hc => by
    rw [parameters]
    refine (orderly_noteExcess hc count _).bind fun _ c₁ hc₁ h₁ => ?_
    refine (orderly_expectName hc₁ _).bind fun name c₂ hc₂ h₂ => ?_
    refine (orderly_accept hc₂ .comma).bind fun comma? c₃ hc₃ ⟨h₃, _⟩ => ?_
    have hfirst := (Cursor.Covers.behind hc h₁ h₂).before h₃
    rcases comma? with _ | comma
    · exact orderly_pure hc₃ hfirst
    · exact (orderly_parameters steps (count + 1) hc₃).bind fun params c₄ hc₄ h₄ =>
        orderly_pure hc₄ (hfirst.append h₄)

section Parts

variable (steps : Nat)

theorem orderly_expressionBefore (hc : c.Rising) (kind : TokenKind) :
    Orderly (expressionBefore steps kind) c fun e? later => c.Covers later (optionalSites e?) := by
  refine (orderly_isNext hc kind).bind fun isNext c₁ hc₁ h₁ => ?_
  subst h₁
  cases isNext
  · exact (orderly_expression steps hc).bind fun e c₂ hc₂ h₂ => orderly_pure hc₂ h₂
  · exact orderly_pure hc (.nil hc (.refl _))

theorem orderly_initializer (hc : c.Rising) :
    Orderly (initializer steps) c fun e? later => c.Covers later (optionalSites e?) := by
  refine (orderly_accept hc .equal).bind fun sign? c₁ hc₁ ⟨h₁, _⟩ => ?_
  rcases sign? with _ | sign
  · exact orderly_pure hc₁ (.nil hc h₁)
  · exact (orderly_expression steps hc₁).bind fun e c₂ hc₂ h₂ => orderly_pure hc₂ (.behind hc h₁ h₂)

theorem orderly_varDeclaration (hc : c.Rising) :
    Orderly (varDeclaration steps) c fun s later => c.Covers later s.sites := by
  refine (orderly_expectName hc _).bind fun name c₁ hc₁ h₁ => ?_
  refine (orderly_initializer steps hc₁).bind fun value c₂ hc₂ h₂ => ?_
  exact (orderly_expect hc₂ _ _).bind fun _ c₃ hc₃ ⟨h₃, _⟩ =>
    orderly_pure hc₃ ((h₁.append h₂).before h₃)

/-- An expression in front of a token. -/
theorem orderly_valueStatement (hc : c.Rising) {kind : TokenKind} {what : Wanted}
    {form : Expr → Stmt} (hform : ∀ value, (form value).sites = value.sites) :
    Orderly (do let value ← expression steps; let _ ← expect kind what; return form value) c
      fun s later => c.Covers later s.sites := by
  refine (orderly_expression steps hc).bind fun value c₁ hc₁ h₁ => ?_
  refine (orderly_expect hc₁ _ _).bind fun _ c₂ hc₂ ⟨h₂, _⟩ => orderly_pure hc₂ ?_
  rw [hform]
  exact h₁.before h₂

theorem orderly_expressionStatement (hc : c.Rising) :
    Orderly (expressionStatement steps) c fun s later => c.Covers later s.sites :=
  orderly_valueStatement steps hc fun _ => rfl

theorem orderly_printStatement (hc : c.Rising) :
    Orderly (printStatement steps) c fun s later => c.Covers later s.sites :=
  orderly_valueStatement steps hc fun _ => rfl

theorem orderly_returnStatement {start : Cursor} {line : Nat}
    (hkeyword : start.Covers c [⟨"return", line⟩]) (hc : c.Rising) :
    Orderly (returnStatement steps line) c fun s later => start.Covers later s.sites := by
  refine (orderly_expressionBefore steps hc _).bind fun value c₁ hc₁ h₁ => ?_
  exact (orderly_expect hc₁ _ _).bind fun _ c₂ hc₂ ⟨h₂, _⟩ =>
    orderly_pure hc₂ ((hkeyword.append h₁).before h₂)

theorem statementSites_singleton (s : Stmt) : statementSites [s] = s.sites :=
  List.append_nil _

theorem orderly_forInitializer (hc : c.Rising) :
    Orderly (forInitializer steps) c fun s? later => c.Covers later (statementSites s?.toList) := by
  refine (orderly_accept hc .semicolon).bind fun semicolon? c₁ hc₁ ⟨h₁, _⟩ => ?_
  rcases semicolon? with _ | semicolon
  · refine (orderly_accept hc₁ .kwVar).bind fun var? c₂ hc₂ ⟨h₂, _⟩ => ?_
    rcases var? with _ | var
    · refine (orderly_expressionStatement steps hc₂).bind fun s c₃ hc₃ h₃ => orderly_pure hc₃ ?_
      rw [Option.toList_some, statementSites_singleton]
      exact .behind hc (h₁.trans h₂) h₃
    · refine (orderly_varDeclaration steps hc₂).bind fun s c₃ hc₃ h₃ => orderly_pure hc₃ ?_
      rw [Option.toList_some, statementSites_singleton]
      exact .behind hc (h₁.trans h₂) h₃
  · exact orderly_pure hc₁ (.nil hc h₁)

theorem orderly_superclassClause (hc : c.Rising) :
    Orderly superclassClause c fun superclass later =>
      c.Covers later (superclassSites superclass) := by
  refine (orderly_accept hc .less).bind fun less? c₁ hc₁ ⟨h₁, _⟩ => ?_
  rcases less? with _ | less
  · exact orderly_pure hc₁ (.nil hc h₁)
  · refine (orderly_expectName hc₁ _).bind fun name c₂ hc₂ h₂ => ?_
    exact (orderly_freshId hc₂).bind fun id c₃ hc₃ h₃ =>
      orderly_pure hc₃ (.behind hc h₁ (h₂.twice.before h₃))

/-- Recovery notes what stopped the parser and passes over tokens. -/
theorem orderly_recovering {p : Parser Stmt} (hc : c.Rising)
    (hp : Orderly p c fun s later => c.Covers later s.sites) :
    Orderly (recovering p) c fun s? later => c.Covers later (statementSites s?.toList) := by
  unfold Orderly at hp
  rcases hpc : p c with ⟨s, later⟩ | ⟨e, later⟩ <;> rw [hpc] at hp
  · have hrun : recovering p c = .ok (some s) later := by
      unfold recovering
      rw [hpc]
    unfold Orderly
    rw [hrun]
    refine ⟨hp.1, ?_⟩
    show c.Covers later (statementSites [s])
    rw [statementSites_singleton]
    exact hp.2
  · have hrun : recovering p c = .ok none { later.note e with rest := resume later.rest } := by
      unfold recovering
      rw [hpc]
    have hresume : (later.note e).Onward { later.note e with rest := resume later.rest } :=
      ⟨resume_suffix later.rest, rfl, Nat.le_refl _, List.prefix_refl _⟩
    have hnoted := hp.note
    unfold Orderly
    rw [hrun]
    exact ⟨hnoted.trans (.quiet (hc.onward hnoted.onward) hresume rfl),
      .nil hc (hnoted.onward.trans hresume)⟩

end Parts

end Parser

/-! ### Loops -/

theorem ForClauses.sites_statement (clauses : ForClauses) : clauses.statement.sites
    = (statementSites clauses.initializer.toList ++ optionalSites clauses.condition)
      ++ (clauses.body.sites ++ optionalSites clauses.increment) := by
  obtain ⟨initializer, condition, increment, body⟩ := clauses
  cases initializer <;> cases condition <;> cases increment <;>
    simp [ForClauses.statement, Parser.forLoop, statementSites, Stmt.sites, optionalSites, Expr.sites]

/-- The clauses and the body of a `for` have been read one behind the other. -/
def ForClauses.Covered (c later : Cursor) (clauses : ForClauses) : Prop :=
  ∃ middle, c.Covers middle
      (statementSites clauses.initializer.toList ++ optionalSites clauses.condition)
    ∧ middle.Covers later (optionalSites clauses.increment ++ clauses.body.sites)

/-- The statement that is made of them is in order. -/
theorem ForClauses.Covered.statement {start c later : Cursor} (hstart : start.Rising) {t : Token}
    (hkind : t.kind = .kwFor) (hfor : start.rest = t :: c.rest) (hskip : start.Onward c) {steps : Nat}
    {clauses : ForClauses} (hrun : Parser.forClauses steps c = .ok clauses later)
    (h : clauses.Covered c later) : start.Covers later clauses.statement.sites := by
  obtain ⟨middle, hclauses, hrounds⟩ := h
  rw [ForClauses.sites_statement]
  refine (Cursor.Covers.behind hstart hskip hclauses).late hrounds fun a ha b hb => ?_
  rcases hincrement : clauses.increment with _ | increment <;> rw [hincrement] at hb
  · cases hb
  · exact ⟨t, steps, c, later, clauses, increment, hkind, ⟨[], hfor.symm⟩, hskip.stop, hrun, hincrement,
      ha, hb⟩

namespace Parser

/-! ### Declarations and statements -/

mutual

theorem orderly_declaration : ∀ (steps : Nat) {c : Cursor}, c.Rising →
    Orderly (declaration steps) c fun s later => c.Covers later s.sites
  | 0, _, hc => orderly_fail hc _
  | steps + 1, c, hc => by
    rw [declaration]
    refine (orderly_accept hc .kwClass).bind fun class? c₁ hc₁ ⟨h₁, _⟩ => ?_
    rcases class? with _ | classWord
    · refine (orderly_accept hc₁ .kwFun).bind fun fun? c₂ hc₂ ⟨h₂, _⟩ => ?_
      have hfun := h₁.trans h₂
      rcases fun? with _ | funWord
      · refine (orderly_accept hc₂ .kwVar).bind fun var? c₃ hc₃ ⟨h₃, _⟩ => ?_
        have hvar := hfun.trans h₃
        rcases var? with _ | varWord
        · exact (orderly_statement steps hc₃).imp fun s later h => .behind hc hvar h
        · exact (orderly_varDeclaration steps hc₃).imp fun s later h => .behind hc hvar h
      · exact (orderly_function steps .function hc₂).bind fun f c₃ hc₃ h₃ =>
          orderly_pure hc₃ (.behind hc hfun h₃)
    · exact (orderly_classDeclaration steps hc₁).imp fun s later h => .behind hc h₁ h

theorem orderly_classDeclaration : ∀ (steps : Nat) {c : Cursor}, c.Rising →
    Orderly (classDeclaration steps) c fun s later => c.Covers later s.sites
  | 0, _, hc => orderly_fail hc _
  | steps + 1, c, hc => by
    rw [classDeclaration]
    refine (orderly_expectName hc _).bind fun name c₁ hc₁ h₁ => ?_
    refine (orderly_superclassClause hc₁).bind fun superclass c₂ hc₂ h₂ => ?_
    refine (orderly_expect hc₂ _ _).bind fun _ c₃ hc₃ ⟨h₃, _⟩ => ?_
    refine (orderly_methods steps hc₃).bind fun decls c₄ hc₄ h₄ => ?_
    refine (orderly_expect hc₄ _ _).bind fun _ c₅ hc₅ ⟨h₅, _⟩ => orderly_pure hc₅ ?_
    exact (h₁.append ((h₂.before h₃).append h₄)).before h₅

theorem orderly_methods : ∀ (steps : Nat) {c : Cursor}, c.Rising →
    Orderly (methods steps) c fun decls later => c.Covers later (methodSites decls)
  | 0, _, hc => orderly_fail hc _
  | steps + 1, c, hc => by
    rw [methods]
    refine (orderly_isNext hc _).bind fun closing c₁ hc₁ h₁ => ?_
    subst h₁
    refine (orderly_isAtEnd hc).bind fun atEnd c₂ hc₂ h₂ => ?_
    subst h₂
    split
    · exact orderly_pure hc (.nil hc (.refl _))
    · refine (orderly_function steps .method hc).bind fun method c₃ hc₃ h₃ => ?_
      -- The name of a method is no site.
      have hmethod := h₃.sublist (List.sublist_cons_self _ _)
      exact (orderly_methods steps hc₃).bind fun decls c₄ hc₄ h₄ =>
        orderly_pure hc₄ (hmethod.append h₄)

theorem orderly_function : ∀ (steps : Nat) (form : FunctionForm) {c : Cursor}, c.Rising →
    Orderly (function steps form) c fun f later => c.Covers later (f.name :: f.sites)
  | 0, _, _, hc => orderly_fail hc _
  | steps + 1, form, c, hc => by
    rw [function]
    refine (orderly_expectName hc _).bind fun name c₁ hc₁ h₁ => ?_
    refine (orderly_expect hc₁ _ _).bind fun _ c₂ hc₂ ⟨h₂, _⟩ => ?_
    have hparams : Orderly (parameters steps 0) c₂ fun params later => c₂.Covers later (id params) :=
      orderly_parameters steps 0 hc₂
    refine (orderly_listBefore rfl hc₂ .rightParen hparams).bind fun params c₃ hc₃ h₃ => ?_
    refine (orderly_expect hc₃ _ _).bind fun _ c₄ hc₄ ⟨h₄, _⟩ => ?_
    refine (orderly_expect hc₄ _ _).bind fun _ c₅ hc₅ ⟨h₅, _⟩ => ?_
    refine (orderly_block steps hc₅).bind fun body c₆ hc₆ h₆ => orderly_pure hc₆ ?_
    exact (h₁.before h₂).append ((h₃.before (h₄.trans h₅)).append h₆)

theorem orderly_block : ∀ (steps : Nat) {c : Cursor}, c.Rising →
    Orderly (block steps) c fun body later => c.Covers later (statementSites body)
  | 0, _, hc => orderly_fail hc _
  | steps + 1, c, hc => by
    rw [block]
    refine (orderly_declarations steps true hc).bind fun body c₁ hc₁ h₁ => ?_
    exact (orderly_expect hc₁ _ _).bind fun _ c₂ hc₂ ⟨h₂, _⟩ => orderly_pure hc₂ (h₁.before h₂)

theorem orderly_declarations : ∀ (steps : Nat) (inBlock : Bool) {c : Cursor}, c.Rising →
    Orderly (declarations steps inBlock) c fun body later => c.Covers later (statementSites body)
  | 0, _, _, hc => orderly_fail hc _
  | steps + 1, inBlock, c, hc => by
    rw [declarations]
    refine (orderly_isNext hc _).bind fun closing c₁ hc₁ h₁ => ?_
    subst h₁
    refine (orderly_isAtEnd hc).bind fun atEnd c₂ hc₂ h₂ => ?_
    subst h₂
    split
    · exact orderly_pure hc (.nil hc (.refl _))
    · refine (orderly_recovering hc (orderly_declaration steps hc)).bind fun first c₃ hc₃ h₃ => ?_
      refine (orderly_declarations steps inBlock hc₃).bind fun others c₄ hc₄ h₄ => orderly_pure hc₄ ?_
      rw [statementSites_append]
      exact h₃.append h₄

theorem orderly_statement : ∀ (steps : Nat) {c : Cursor}, c.Rising →
    Orderly (statement steps) c fun s later => c.Covers later s.sites
  | 0, _, hc => orderly_fail hc _
  | steps + 1, c, hc => by
    rw [statement]
    refine (orderly_peek hc).bind fun t c₁ hc₁ h₁ => ?_
    obtain ⟨rfl, rfl⟩ := h₁
    have skipping : ∀ {p : Parser Stmt},
        (∀ later : Cursor, later.Rising → Orderly p later fun s last => later.Covers last s.sites) →
        Orderly (do skip; p) c₁ fun s later => c₁.Covers later s.sites := fun hp =>
      (orderly_skip hc).bind fun _ c₂ hc₂ ⟨h₂, _⟩ =>
        (hp c₂ hc₂).imp fun s later h => .behind hc h₂ h
    split
    · rename_i hkind
      obtain ⟨rest, hrest⟩ := hc.rest_eq (by rw [Token.isEnd, hkind]; rfl)
      refine (orderly_skip hc).bind fun _ c₂ hc₂ ⟨h₂, hrest₂⟩ => ?_
      rw [hrest, List.tail_cons] at hrest₂
      rw [forStatement_eq, map_eq_pure_bind]
      refine (orderly_forClauses steps hc₂).with_run.bind fun clauses c₃ hc₃ ⟨hrun, h₃⟩ => ?_
      exact orderly_pure hc₃ (h₃.statement hc hkind (by rw [hrest, hrest₂]) h₂ hrun)
    · exact skipping fun _ => orderly_ifStatement steps
    · exact skipping fun _ => orderly_printStatement steps
    · rename_i hkind
      refine (orderly_skip hc).bind fun _ c₂ hc₂ ⟨h₂, _⟩ => ?_
      refine orderly_returnStatement steps (.single hc h₂ (hc.writes ?_)) hc₂
      rw [hkind]
      simp [TokenKind.reserved]
    · exact skipping fun _ => orderly_whileStatement steps
    · exact skipping fun _ hlater =>
        (orderly_block steps hlater).bind fun body c₂ hc₂ h₂ => orderly_pure hc₂ h₂
    · exact orderly_expressionStatement steps hc

theorem orderly_forClauses : ∀ (steps : Nat) {c : Cursor}, c.Rising →
    Orderly (forClauses steps) c fun clauses later => clauses.Covered c later
  | 0, _, hc => orderly_fail hc _
  | steps + 1, c, hc => by
    rw [forClauses]
    refine (orderly_expect hc _ _).bind fun _ c₁ hc₁ ⟨h₁, _⟩ => ?_
    refine (orderly_forInitializer steps hc₁).bind fun initializer c₂ hc₂ h₂ => ?_
    refine (orderly_expressionBefore steps hc₂ _).bind fun condition c₃ hc₃ h₃ => ?_
    refine (orderly_expect hc₃ _ _).bind fun _ c₄ hc₄ ⟨h₄, _⟩ => ?_
    refine (orderly_expressionBefore steps hc₄ _).bind fun increment c₅ hc₅ h₅ => ?_
    refine (orderly_expect hc₅ _ _).bind fun _ c₆ hc₆ ⟨h₆, _⟩ => ?_
    refine (orderly_statement steps hc₆).bind fun body c₇ hc₇ h₇ => orderly_pure hc₇ ?_
    exact ⟨c₄, (Cursor.Covers.behind hc h₁ (h₂.append h₃)).before h₄, (h₅.before h₆).append h₇⟩

theorem orderly_ifStatement : ∀ (steps : Nat) {c : Cursor}, c.Rising →
    Orderly (ifStatement steps) c fun s later => c.Covers later s.sites
  | 0, _, hc => orderly_fail hc _
  | steps + 1, c, hc => by
    rw [ifStatement]
    refine (orderly_expect hc _ _).bind fun _ c₁ hc₁ ⟨h₁, _⟩ => ?_
    refine (orderly_expression steps hc₁).bind fun condition c₂ hc₂ h₂ => ?_
    refine (orderly_expect hc₂ _ _).bind fun _ c₃ hc₃ ⟨h₃, _⟩ => ?_
    refine (orderly_statement steps hc₃).bind fun thenBranch c₄ hc₄ h₄ => ?_
    refine (orderly_accept hc₄ .kwElse).bind fun else? c₅ hc₅ ⟨h₅, _⟩ => ?_
    have hthen := ((Cursor.Covers.behind hc h₁ h₂).before h₃).append (h₄.before h₅)
    rcases else? with _ | elseWord
    · exact orderly_pure hc₅ hthen
    · refine (orderly_statement steps hc₅).bind fun elseBranch c₆ hc₆ h₆ => orderly_pure hc₆ ?_
      rw [Stmt.sites, ← List.append_assoc]
      exact hthen.append h₆

theorem orderly_whileStatement : ∀ (steps : Nat) {c : Cursor}, c.Rising →
    Orderly (whileStatement steps) c fun s later => c.Covers later s.sites
  | 0, _, hc => orderly_fail hc _
  | steps + 1, c, hc => by
    rw [whileStatement]
    refine (orderly_expect hc _ _).bind fun _ c₁ hc₁ ⟨h₁, _⟩ => ?_
    refine (orderly_expression steps hc₁).bind fun condition c₂ hc₂ h₂ => ?_
    refine (orderly_expect hc₂ _ _).bind fun _ c₃ hc₃ ⟨h₃, _⟩ => ?_
    refine (orderly_statement steps hc₃).bind fun body c₄ hc₄ h₄ => orderly_pure hc₄ ?_
    exact ((Cursor.Covers.behind hc h₁ h₂).before h₃).append h₄

end

end Parser

/-! ### Whole programs -/

/-- What is read from here is in order: the errors, and the sites in the tree. -/
structure Cursor.ReadInOrder (c : Cursor) (program : Program) (errors : List SyntaxError) : Prop where
  found : errors.Pairwise fun a b => a.token.line ≤ b.token.line ∨ LateTarget c a b
  tokens : ∀ e ∈ errors, e.token ∈ c.left
  sites : (statementSites program).Pairwise fun a b => a.line ≤ b.line ∨ LateIncrement c a b
  names : ∀ name ∈ statementSites program, ∃ t ∈ c.left, t.lexeme = name.text ∧ t.line = name.line

/-- A program is read in order. -/
theorem Cursor.program_in_order {c : Cursor} (hc : c.Rising) {program : Program}
    {errors : List SyntaxError} {later : Cursor} (hread : c.program = (program, errors, later)) :
    c.ReadInOrder program errors := by
  have hstart : Rising { c with errors := [] } := ⟨hc.lines, hc.stop, hc.spelled⟩
  have horderly := Parser.orderly_declarations c.steps false hstart
  unfold Parser.Orderly at horderly
  unfold Cursor.program Cursor.run at hread
  rcases hrun : Parser.declarations c.steps false { c with errors := [] } with
    ⟨statements, last⟩ | ⟨e, last⟩ <;> rw [hrun] at horderly hread <;> cases hread
  · obtain ⟨hnotes, hcovers⟩ := horderly
    obtain ⟨noted, herrors, horder, htokens⟩ := hnotes.found
    rw [List.append_nil] at horder htokens
    rw [List.nil_append] at herrors
    rw [herrors]
    exact ⟨horder.pairs, htokens, hcovers.order.pairs, hcovers.tokens⟩
  · obtain ⟨noted, herrors, horder, htokens⟩ := horderly.found
    rw [List.nil_append] at herrors
    rw [herrors]
    exact ⟨horder.pairs, htokens, .nil, nofun⟩

end Treewalk
