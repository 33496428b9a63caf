import Mathlib.Order.Bounds.Defs
import Treewalk.Proofs.Syntax.Continuation
import Treewalk.Proofs.Syntax.Grammar

/-!
# Going on after an error

**Behind a declaration that breaks, parsing goes on at the first statement boundary after the
token at which it broke.**  A boundary is the end of the source, a token that starts a statement,
or the place behind a semicolon.  The token at which the declaration broke is never looked at
again, so that a parser that stops without reading anything still gets on.  The price is paid
where that token starts a statement, as in `print 1 print 2;`: that statement is lost too.

Two facts are put together: an error that stops a parser stands at the token in front of which
the parser stays, and recovery finds the first boundary from there.
-/

namespace Treewalk

namespace Parser

/-! ### Where a parser stays -/

/-- An error that stops the parser stands at the token in front of which the parser stays. -/
def StaysAtError {α : Type} (p : Parser α) : Prop :=
  ∀ c e later, p c = .error e later → e.token = later.next

variable {α β : Type} {p : Parser α} {f : α → Parser β}

theorem staysAtError_of_ok (h : ∀ c, ∃ a later, p c = .ok a later) : StaysAtError p := by
  intro c e later he
  obtain ⟨a, later', hok⟩ := h c
  rw [hok] at he
  cases he

theorem staysAtError_pure (a : α) : StaysAtError (pure a) :=
  staysAtError_of_ok fun c => ⟨a, c, rfl⟩

theorem staysAtError_fail (fault : SyntaxFault) : StaysAtError (fail fault : Parser α) := by
  intro c e later he
  cases he
  rfl

theorem StaysAtError.bind (hp : StaysAtError p) (hf : ∀ a, StaysAtError (f a)) :
    StaysAtError (p >>= f) := by
  intro c e later he
  rcases hpc : p c with ⟨a, middle⟩ | ⟨e', middle⟩
  · rw [bind_of_ok hpc] at he
    exact hf a middle e later he
  · rw [bind_of_error hpc] at he
    cases he
    exact hp c e later hpc

theorem staysAtError_peek : StaysAtError peek :=
  staysAtError_of_ok fun c => ⟨_, c, rfl⟩

theorem staysAtError_skip : StaysAtError skip :=
  staysAtError_of_ok fun _ => ⟨_, _, rfl⟩

theorem staysAtError_isNext (kind : TokenKind) : StaysAtError (isNext kind) :=
  staysAtError_of_ok fun c => ⟨_, c, rfl⟩

theorem staysAtError_isAtEnd : StaysAtError isAtEnd :=
  staysAtError_of_ok fun c => ⟨_, c, rfl⟩

theorem staysAtError_freshId : StaysAtError freshId :=
  staysAtError_of_ok fun _ => ⟨_, _, rfl⟩

theorem staysAtError_note (token : Token) (fault : SyntaxFault) :
    StaysAtError (note token fault) :=
  staysAtError_of_ok fun _ => ⟨_, _, rfl⟩

theorem staysAtError_accept (kind : TokenKind) : StaysAtError (accept kind) := by
  refine staysAtError_of_ok fun c => ?_
  unfold accept
  split
  · split
    · exact ⟨_, _, rfl⟩
    · exact ⟨_, _, rfl⟩
  · exact ⟨_, _, rfl⟩

theorem staysAtError_acceptJoin (level : Level) : StaysAtError (acceptJoin level) := by
  refine staysAtError_of_ok fun c => ?_
  unfold acceptJoin
  split
  · split
    · exact ⟨_, _, rfl⟩
    · exact ⟨_, _, rfl⟩
  · exact ⟨_, _, rfl⟩

theorem staysAtError_expect (kind : TokenKind) (what : Wanted) :
    StaysAtError (expect kind what) := by
  refine (staysAtError_accept kind).bind fun t? => ?_
  cases t? with
  | none => exact staysAtError_fail _
  | some t => exact staysAtError_pure t

theorem staysAtError_expectName (what : Wanted) : StaysAtError (expectName what) :=
  (staysAtError_expect _ what).bind fun _ => staysAtError_pure _

theorem staysAtError_listBefore (kind : TokenKind) {items : Parser (List α)}
    (hitems : StaysAtError items) : StaysAtError (listBefore kind items) := by
  refine (staysAtError_isNext kind).bind fun closes => ?_
  cases closes
  · exact hitems
  · exact staysAtError_pure _

theorem staysAtError_noteExcess (count : Nat) (fault : SyntaxFault) :
    StaysAtError (noteExcess count fault) := by
  unfold noteExcess
  split
  · exact staysAtError_peek.bind fun _ => staysAtError_note _ _
  · exact staysAtError_pure _

/-- Recovery turns every error into a note. -/
theorem staysAtError_recovering (p : Parser α) : StaysAtError (recovering p) := by
  refine staysAtError_of_ok fun c => ?_
  unfold recovering
  split
  · exact ⟨_, _, rfl⟩
  · exact ⟨_, _, rfl⟩

/-- A parser behind a token, and another parser where that token is not next. -/
theorem staysAtError_choice {kind : TokenKind} {present : Token → Parser β} {absent : Parser β}
    (hpresent : ∀ t, StaysAtError (present t)) (habsent : StaysAtError absent) :
    StaysAtError (do
      match ← accept kind with
      | some t => present t
      | none => absent) := by
  refine (staysAtError_accept kind).bind fun t? => ?_
  cases t? with
  | none => exact habsent
  | some t => exact hpresent t

/-! ### Expressions -/

mutual

theorem staysAtError_expression : ∀ steps, StaysAtError (expression steps)
  | 0 => staysAtError_fail _
  | steps + 1 => by
    rw [expression]
    refine (staysAtError_joined steps _).bind fun target => ?_
    refine (staysAtError_accept _).bind fun sign? => ?_
    cases sign? with
    | none => exact staysAtError_pure _
    | some sign =>
      refine (staysAtError_expression steps).bind fun value => ?_
      cases target
      case «variable» => exact staysAtError_freshId.bind fun _ => staysAtError_pure _
      case get => exact staysAtError_pure _
      all_goals exact (staysAtError_note _ _).bind fun _ => staysAtError_pure _

theorem staysAtError_joined : ∀ steps levels, StaysAtError (joined steps levels)
  | 0, _ => staysAtError_fail _
  | steps + 1, [] => by
    rw [joined]
    exact staysAtError_unary steps
  | steps + 1, level :: tighter => by
    rw [joined]
    exact (staysAtError_joined steps tighter).bind fun left =>
      staysAtError_joinedFrom steps level tighter left

theorem staysAtError_joinedFrom : ∀ steps level tighter left,
    StaysAtError (joinedFrom steps level tighter left)
  | 0, _, _, _ => staysAtError_fail _
  | steps + 1, level, tighter, left => by
    rw [joinedFrom]
    refine (staysAtError_acceptJoin level).bind fun join? => ?_
    cases join? with
    | none => exact staysAtError_pure _
    | some join => exact (staysAtError_joined steps tighter).bind fun right =>
        staysAtError_joinedFrom steps level tighter (join left right)

theorem staysAtError_unary : ∀ steps, StaysAtError (unary steps)
  | 0 => staysAtError_fail _
  | steps + 1 => by
    rw [unary]
    refine staysAtError_choice (fun _ => ?_) (staysAtError_choice (fun _ => ?_) ?_)
    · exact (staysAtError_unary steps).bind fun _ => staysAtError_pure _
    · exact (staysAtError_unary steps).bind fun _ => staysAtError_pure _
    · exact (staysAtError_primary steps).bind fun left => staysAtError_calls steps left

theorem staysAtError_calls : ∀ steps left, StaysAtError (calls steps left)
  | 0, _ => staysAtError_fail _
  | steps + 1, left => by
    rw [calls]
    refine staysAtError_choice (fun _ => ?_)
      (staysAtError_choice (fun _ => ?_) (staysAtError_pure _))
    · refine (staysAtError_listBefore _ (staysAtError_arguments steps 0)).bind fun args => ?_
      exact (staysAtError_expect _ _).bind fun paren => staysAtError_calls steps _
    · exact (staysAtError_expectName _).bind fun name => staysAtError_calls steps _

theorem staysAtError_arguments : ∀ steps count, StaysAtError (arguments steps count)
  | 0, _ => staysAtError_fail _
  | steps + 1, count => by
    rw [arguments]
    refine (staysAtError_noteExcess _ _).bind fun _ => ?_
    refine (staysAtError_expression steps).bind fun _ => ?_
    refine staysAtError_choice (fun _ => ?_) (staysAtError_pure _)
    exact (staysAtError_arguments steps (count + 1)).bind fun _ => staysAtError_pure _

theorem staysAtError_primary : ∀ steps, StaysAtError (primary steps)
  | 0 => staysAtError_fail _
  | steps + 1 => by
    rw [primary]
    refine staysAtError_peek.bind fun t => ?_
    have leaf : ∀ e : Expr, StaysAtError (do skip; return e) := fun _ =>
      staysAtError_skip.bind fun _ => staysAtError_pure _
    split
    · exact leaf _
    · exact leaf _
    · exact leaf _
    · exact leaf _
    · exact leaf _
    · refine staysAtError_skip.bind fun _ => (staysAtError_expect _ _).bind fun _ => ?_
      exact (staysAtError_expectName _).bind fun _ => staysAtError_freshId.bind fun _ =>
        staysAtError_pure _
    · exact staysAtError_skip.bind fun _ => staysAtError_freshId.bind fun _ => staysAtError_pure _
    · exact staysAtError_skip.bind fun _ => staysAtError_freshId.bind fun _ => staysAtError_pure _
    · refine staysAtError_skip.bind fun _ => (staysAtError_expression steps).bind fun _ => ?_
      exact (staysAtError_expect _ _).bind fun _ => staysAtError_pure _
    · exact staysAtError_fail _

end

/-! ### Statements and declarations -/

/-- A parser, then a token that closes what it read. -/
theorem StaysAtError.closed {γ : Type} {r : α → γ} (hp : StaysAtError p) (kind : TokenKind)
    (what : Wanted) : StaysAtError (do
      let a ← p
      let _ ← expect kind what
      return r a) :=
  hp.bind fun _ => (staysAtError_expect kind what).bind fun _ => staysAtError_pure _

theorem staysAtError_parameters : ∀ steps count, StaysAtError (parameters steps count)
  | 0, _ => staysAtError_fail _
  | steps + 1, count => by
    rw [parameters]
    refine (staysAtError_noteExcess _ _).bind fun _ => ?_
    refine (staysAtError_expectName _).bind fun _ => ?_
    refine staysAtError_choice (fun _ => ?_) (staysAtError_pure _)
    exact (staysAtError_parameters steps (count + 1)).bind fun _ => staysAtError_pure _

theorem staysAtError_expressionBefore (steps : Nat) (kind : TokenKind) :
    StaysAtError (expressionBefore steps kind) := by
  refine (staysAtError_isNext kind).bind fun closes => ?_
  cases closes
  · exact (staysAtError_expression steps).bind fun _ => staysAtError_pure _
  · exact staysAtError_pure _

theorem staysAtError_initializer (steps : Nat) : StaysAtError (initializer steps) :=
  staysAtError_choice (fun _ => (staysAtError_expression steps).bind fun _ => staysAtError_pure _)
    (staysAtError_pure _)

theorem staysAtError_varDeclaration (steps : Nat) : StaysAtError (varDeclaration steps) :=
  (staysAtError_expectName _).bind fun _ => (staysAtError_initializer steps).closed _ _

theorem staysAtError_expressionStatement (steps : Nat) :
    StaysAtError (expressionStatement steps) :=
  (staysAtError_expression steps).closed _ _

theorem staysAtError_printStatement (steps : Nat) : StaysAtError (printStatement steps) :=
  (staysAtError_expression steps).closed _ _

theorem staysAtError_returnStatement (steps line : Nat) :
    StaysAtError (returnStatement steps line) :=
  (staysAtError_expressionBefore steps _).closed _ _

theorem staysAtError_forInitializer (steps : Nat) : StaysAtError (forInitializer steps) := by
  refine staysAtError_choice (fun _ => staysAtError_pure _)
    (staysAtError_choice (fun _ => ?_) ?_)
  · exact (staysAtError_varDeclaration steps).bind fun _ => staysAtError_pure _
  · exact (staysAtError_expressionStatement steps).bind fun _ => staysAtError_pure _

theorem staysAtError_superclassClause : StaysAtError superclassClause := by
  refine staysAtError_choice (fun _ => ?_) (staysAtError_pure _)
  exact (staysAtError_expectName _).bind fun _ => staysAtError_freshId.bind fun _ =>
    staysAtError_pure _

mutual

theorem staysAtError_declaration : ∀ steps, StaysAtError (declaration steps)
  | 0 => staysAtError_fail _
  | steps + 1 => by
    rw [declaration]
    refine staysAtError_choice (fun _ => staysAtError_classDeclaration steps)
      (staysAtError_choice (fun _ => ?_)
        (staysAtError_choice (fun _ => staysAtError_varDeclaration steps)
          (staysAtError_statement steps)))
    exact (staysAtError_function steps _).bind fun _ => staysAtError_pure _

theorem staysAtError_classDeclaration : ∀ steps, StaysAtError (classDeclaration steps)
  | 0 => staysAtError_fail _
  | steps + 1 => by
    rw [classDeclaration]
    refine (staysAtError_expectName _).bind fun _ => staysAtError_superclassClause.bind fun _ => ?_
    exact (staysAtError_expect _ _).bind fun _ => (staysAtError_methods steps).closed _ _

theorem staysAtError_methods : ∀ steps, StaysAtError (methods steps)
  | 0 => staysAtError_fail _
  | steps + 1 => by
    rw [methods]
    refine (staysAtError_isNext _).bind fun _ => staysAtError_isAtEnd.bind fun _ => ?_
    split
    · exact staysAtError_pure _
    · exact (staysAtError_function steps _).bind fun _ => (staysAtError_methods steps).bind
        fun _ => staysAtError_pure _

theorem staysAtError_function : ∀ steps form, StaysAtError (function steps form)
  | 0, _ => staysAtError_fail _
  | steps + 1, form => by
    rw [function]
    refine (staysAtError_expectName _).bind fun _ => (staysAtError_expect _ _).bind fun _ => ?_
    refine (staysAtError_listBefore _ (staysAtError_parameters steps 0)).bind fun _ => ?_
    refine (staysAtError_expect _ _).bind fun _ => (staysAtError_expect _ _).bind fun _ => ?_
    exact (staysAtError_block steps).bind fun _ => staysAtError_pure _

theorem staysAtError_block : ∀ steps, StaysAtError (block steps)
  | 0 => staysAtError_fail _
  | steps + 1 => by
    rw [block]
    exact (staysAtError_declarations steps true).closed _ _

theorem staysAtError_declarations : ∀ steps inBlock, StaysAtError (declarations steps inBlock)
  | 0, _ => staysAtError_fail _
  | steps + 1, inBlock => by
    rw [declarations]
    refine (staysAtError_isNext _).bind fun _ => staysAtError_isAtEnd.bind fun _ => ?_
    split
    · exact staysAtError_pure _
    · exact (staysAtError_recovering _).bind fun _ => (staysAtError_declarations steps _).bind
        fun _ => staysAtError_pure _

theorem staysAtError_statement : ∀ steps, StaysAtError (statement steps)
  | 0 => staysAtError_fail _
  | steps + 1 => by
    rw [statement]
    refine staysAtError_peek.bind fun t => ?_
    split
    · exact staysAtError_skip.bind fun _ => staysAtError_forStatement steps
    · exact staysAtError_skip.bind fun _ => staysAtError_ifStatement steps
    · exact staysAtError_skip.bind fun _ => staysAtError_printStatement steps
    · exact staysAtError_skip.bind fun _ => staysAtError_returnStatement steps _
    · exact staysAtError_skip.bind fun _ => staysAtError_whileStatement steps
    · exact staysAtError_skip.bind fun _ => (staysAtError_block steps).bind fun _ =>
        staysAtError_pure _
    · exact staysAtError_expressionStatement steps

theorem staysAtError_forStatement : ∀ steps, StaysAtError (forStatement steps)
  | 0 => staysAtError_fail _
  | steps + 1 => by
    rw [forStatement]
    refine (staysAtError_expect _ _).bind fun _ => (staysAtError_forInitializer steps).bind
      fun _ => ?_
    refine (staysAtError_expressionBefore steps _).bind fun _ => (staysAtError_expect _ _).bind
      fun _ => ?_
    refine (staysAtError_expressionBefore steps _).bind fun _ => (staysAtError_expect _ _).bind
      fun _ => ?_
    exact (staysAtError_statement steps).bind fun _ => staysAtError_pure _

theorem staysAtError_ifStatement : ∀ steps, StaysAtError (ifStatement steps)
  | 0 => staysAtError_fail _
  | steps + 1 => by
    rw [ifStatement]
    refine (staysAtError_expect _ _).bind fun _ => (staysAtError_expression steps).bind fun _ => ?_
    refine (staysAtError_expect _ _).bind fun _ => (staysAtError_statement steps).bind fun _ => ?_
    refine staysAtError_choice (fun _ => ?_) (staysAtError_pure _)
    exact (staysAtError_statement steps).bind fun _ => staysAtError_pure _

theorem staysAtError_whileStatement : ∀ steps, StaysAtError (whileStatement steps)
  | 0 => staysAtError_fail _
  | steps + 1 => by
    rw [whileStatement]
    refine (staysAtError_expect _ _).bind fun _ => (staysAtError_expression steps).bind fun _ => ?_
    exact (staysAtError_expect _ _).bind fun _ => (staysAtError_statement steps).bind fun _ =>
      staysAtError_pure _

end

/-! ### The place where parsing goes on -/

/-- A statement may be expected to start at place `q`: the token there starts one, or the token
    before is a semicolon. -/
def Boundary (tokens : List Token) (q : Nat) : Prop :=
  (∃ t, tokens[q]? = some t ∧ startsStatement t.kind = true)
    ∨ ∃ last, tokens[q - 1]? = some last ∧ last.kind = .semicolon

/-- Behind an error at place `e`, parsing may go on at place `q`: at the end of the tokens, or at
    a statement boundary behind the token that caused the error. -/
def Resumable (tokens : List Token) (e q : Nat) : Prop :=
  q = tokens.length ∨ e < q ∧ Boundary tokens q

/-- Skipping stops at the first boundary. -/
theorem isLeast_boundary {tokens : List Token} : ∀ {rest : List Token} {last : Token} {k : Nat},
    tokens.drop (k + 1) = rest → tokens[k]? = some last → ∃ p, boundary last rest = tokens.drop p
      ∧ IsLeast {q | k < q ∧ (q = tokens.length ∨ Boundary tokens q)} p
  | [], last, k, hrest, hlast => by
    have hk : k < tokens.length := (List.getElem?_eq_some_iff.mp hlast).1
    have hend : tokens.length = k + 1 :=
      Nat.le_antisymm (List.drop_eq_nil_iff.mp hrest) hk
    refine ⟨k + 1, hrest.symm, ⟨Nat.lt_succ_self k, Or.inl hend.symm⟩, fun q hq => hq.1⟩
  | t :: rest, last, k, hrest, hlast => by
    have ht : tokens[k + 1]? = some t := by
      rw [← List.head?_drop, hrest]
      rfl
    rw [boundary]
    split
    case isTrue hstop =>
      refine ⟨k + 1, hrest.symm, ⟨Nat.lt_succ_self k, Or.inr ?_⟩, fun q hq => hq.1⟩
      rcases Bool.or_eq_true_iff.mp hstop with hlastKind | hstarts
      · exact Or.inr ⟨last, hlast,
          TokenKind.eq_of_sameForm hlastKind (by simp [TokenKind.bare])⟩
      · exact Or.inl ⟨t, ht, hstarts⟩
    case isFalse hgo =>
      have hdrop : tokens.drop (k + 1 + 1) = rest := by
        rw [← List.tail_drop, hrest]
        rfl
      obtain ⟨p, hp, hmem, hleast⟩ := isLeast_boundary hdrop ht
      refine ⟨p, hp, ⟨Nat.lt_of_succ_lt hmem.1, hmem.2⟩, ?_⟩
      rintro q ⟨hkq, hq⟩
      refine hleast ⟨Nat.lt_of_le_of_ne hkq fun hqk => ?_, hq⟩
      -- Neither the end nor a boundary stands right behind the last token.
      subst hqk
      rcases hq with hend | ⟨t', ht', hstarts⟩ | ⟨last', hlast', hsemicolon⟩
      · exact absurd (List.getElem?_eq_some_iff.mp ht).1 (by omega)
      · rw [ht] at ht'
        cases ht'
        exact hgo (Bool.or_eq_true_iff.mpr (Or.inr hstarts))
      · rw [Nat.add_sub_cancel, hlast] at hlast'
        cases hlast'
        exact hgo (Bool.or_eq_true_iff.mpr (Or.inl (by rw [hsemicolon]; rfl)))

/-- Recovery goes on at the first place that there is for it. -/
theorem isLeast_resume {tokens : List Token} {e : Nat} (he : e ≤ tokens.length) :
    ∃ p, resume (tokens.drop e) = tokens.drop p
      ∧ IsLeast {q | e ≤ q ∧ Resumable tokens e q} p := by
  rcases hrest : tokens.drop e with _ | ⟨t, rest⟩
  · have hend : e = tokens.length := Nat.le_antisymm he (List.drop_eq_nil_iff.mp hrest)
    refine ⟨e, ?_, ⟨Nat.le_refl e, Or.inl hend⟩, fun q hq => hq.1⟩
    rw [hrest]
    rfl
  · have ht : tokens[e]? = some t := by
      rw [← List.head?_drop, hrest]
      rfl
    have hlt : e < tokens.length := (List.getElem?_eq_some_iff.mp ht).1
    have hdrop : tokens.drop (e + 1) = rest := by
      rw [← List.tail_drop, hrest]
      rfl
    obtain ⟨p, hp, hmem, hleast⟩ := isLeast_boundary hdrop ht
    refine ⟨p, hp, ⟨Nat.le_of_lt hmem.1, hmem.2.imp_right fun h => ⟨hmem.1, h⟩⟩,
      fun q ⟨_, hq⟩ => ?_⟩
    rcases hq with hend | ⟨heq, hq⟩
    · exact hleast ⟨by omega, Or.inl hend⟩
    · exact hleast ⟨heq, Or.inr hq⟩

/-! ### Behind a declaration that breaks -/

/-- A list of declarations goes on behind a declaration that breaks as recovery leaves it. -/
theorem declarations_of_error {steps : Nat} {inBlock : Bool} {c later : Cursor} {err : SyntaxError}
    (hne : c.rest ≠ []) (hopen : inBlock = true → c.next.kind ≠ .rightBrace)
    (herr : declaration steps c = .error err later) :
    declarations (steps + 1) inBlock c =
      declarations steps inBlock { later.note err with rest := resume later.rest } := by
  obtain ⟨t, rest, hrest⟩ := List.exists_cons_of_ne_nil hne
  have hnext : isNext .rightBrace c = .ok (t.kind.sameForm .rightBrace) c := by
    unfold isNext
    rw [hrest]
    rfl
  have hatEnd : isAtEnd c = .ok false c := by
    unfold isAtEnd
    rw [hrest]
    rfl
  have hgo : (inBlock && t.kind.sameForm .rightBrace || false) = false := by
    cases inBlock with
    | false => rfl
    | true =>
      have hkind := hopen rfl
      unfold Cursor.next at hkind
      rw [hrest] at hkind
      simp only [Bool.true_and, Bool.or_false]
      exact Bool.eq_false_iff.mpr fun h =>
        hkind (TokenKind.eq_of_sameForm h (by simp [TokenKind.bare]))
  have hrecovering : recovering (declaration steps) c =
      .ok none { later.note err with rest := resume later.rest } := by
    unfold recovering
    rw [herr]
  rw [declarations, bind_of_ok hnext, bind_of_ok hatEnd, hgo]
  show (recovering (declaration steps) >>= _) c = _
  rw [bind_of_ok hrecovering]
  rcases hothers : declarations steps inBlock { later.note err with rest := resume later.rest }
    with ⟨others, last⟩ | ⟨err', last⟩
  · rw [bind_of_ok hothers]
    rfl
  · rw [bind_of_error hothers]

/-- The token at a place, where the last token ends the source. -/
theorem getElem?_concat_end {tokens : List Token} {stop : Token} {e : Nat}
    (he : e ≤ tokens.length) : (tokens ++ [stop])[e]? = some ((tokens.drop e).headD stop) := by
  rw [← List.head?_drop, List.drop_append_of_le_length he]
  cases tokens.drop e <;> rfl

/-- When a declaration breaks, in a block or outside of one, its error stands at the token in
    front of which the parser was stopped, at or behind the start of the declaration.  The error
    is noted, the declaration left out, and the list of declarations goes on at the first place
    behind that token where the source ends or a statement boundary is. -/
theorem declarations_resume (read : List Token) {steps : Nat} {inBlock : Bool} {c later : Cursor}
    {err : SyntaxError} (hne : c.rest ≠ []) (hopen : inBlock = true → c.next.kind ≠ .rightBrace)
    (herr : declaration steps c = .error err later) :
    ∃ e p, read.length ≤ e ∧ later.rest = (read ++ c.rest).drop e
      ∧ (read ++ c.rest ++ [c.stop])[e]? = some err.token
      ∧ IsLeast {q | e ≤ q ∧ Resumable (read ++ c.rest) e q} p
      ∧ declarations (steps + 1) inBlock c = declarations steps inBlock
          { later.note err with rest := (read ++ c.rest).drop p } := by
  have honward := (whole_declaration (ι := ⟨id, 0, []⟩) steps steps (Nat.le_refl _)).advances c
  unfold Gives at honward
  rw [herr] at honward
  obtain ⟨before, hbefore⟩ := honward.rest
  have hrest : later.rest = (read ++ c.rest).drop (read.length + before.length) := by
    rw [← hbefore, ← List.append_assoc, ← List.length_append, List.drop_left]
  have hplace : read.length + before.length ≤ (read ++ c.rest).length := by
    rw [← hbefore]
    simp only [List.length_append]
    omega
  obtain ⟨p, hresume, hleast⟩ := isLeast_resume hplace
  refine ⟨_, p, Nat.le_add_right _ _, hrest, ?_, hleast, ?_⟩
  · rw [staysAtError_declaration steps c err later herr, ← honward.stop]
    unfold Cursor.next
    rw [hrest]
    exact getElem?_concat_end hplace
  · rw [declarations_of_error hne hopen herr, hrest, hresume]

/-- The tokens of `print true print false;`, without the end of the source. -/
def unseparated : List Token :=
  [⟨.kwPrint, "print", 1⟩, ⟨.kwTrue, "true", 1⟩, ⟨.kwPrint, "print", 1⟩, ⟨.kwFalse, "false", 1⟩,
    ⟨.semicolon, ";", 1⟩]

theorem declarations_resume_unseparated :
    ∃ later : Cursor, declaration 95 (.start unseparated 0) =
        .error ⟨⟨.kwPrint, "print", 1⟩, .wanted .printEnd⟩ later
      ∧ ∃ e p, 0 ≤ e ∧ later.rest = unseparated.drop e
      ∧ (unseparated ++ [⟨.eof, "", 1⟩])[e]? = some ⟨.kwPrint, "print", 1⟩
      ∧ IsLeast {q | e ≤ q ∧ Resumable unseparated e q} p
      ∧ declarations 96 false (.start unseparated 0) = declarations 95 false
          { later.note ⟨⟨.kwPrint, "print", 1⟩, .wanted .printEnd⟩ with
            rest := unseparated.drop p } := by
  have herr : ∃ later : Cursor, declaration 95 (.start unseparated 0) =
      .error ⟨⟨.kwPrint, "print", 1⟩, .wanted .printEnd⟩ later := ⟨_, rfl⟩
  obtain ⟨later, herr⟩ := herr
  exact ⟨later, herr, @declarations_resume [] 95 false _ _ _ (by decide)
    (fun h => absurd h Bool.false_ne_true) herr⟩

/-- A statement that starts at the token at which another broke is lost with it.  The nearest
    statement boundary from that token on is in front of it, but parsing goes on at the end, and
    nothing is left of the program. -/
theorem keyword_skipped_at_error :
    ∃ later : Cursor, declaration 95 (.start unseparated 0) =
        .error ⟨⟨.kwPrint, "print", 1⟩, .wanted .printEnd⟩ later
      ∧ later.rest = unseparated.drop 2
      ∧ IsLeast {q | 2 ≤ q ∧ (q = unseparated.length
          ∨ (∃ t, unseparated[q]? = some t ∧ startsStatement t.kind = true)
          ∨ 2 < q ∧ ∃ last, unseparated[q - 1]? = some last ∧ last.kind = .semicolon)} 2
      ∧ resume later.rest ≠ unseparated.drop 2
      ∧ (Cursor.start unseparated 0).program.1 = [] := by
  refine ⟨_, rfl, rfl, ⟨⟨Nat.le_refl 2, ?_⟩, fun q hq => hq.1⟩, ?_, ?_⟩
  · exact Or.inr (Or.inl ⟨_, rfl, rfl⟩)
  · exact (List.cons_ne_nil _ _).symm
  · rfl

end Parser

end Treewalk
