import Treewalk.Proofs.Token.Munch
import Treewalk.Proofs.Token.Words

/-!
# The names in an expression

**Every name in an expression is the lexeme of a name token of its source.**  Such a lexeme is a word:
letters and digits, and nothing else.
-/

namespace Treewalk

mutual

/-- The texts of all names in an expression. -/
def Expr.names : Expr → List String
  | .literal _ => []
  | .grouping inner => inner.names
  | .unary _ _ operand => operand.names
  | .binary _ _ left right => left.names ++ right.names
  | .logical _ _ left right => left.names ++ right.names
  | .variable name _ => [name.text]
  | .assign name _ value => name.text :: value.names
  | .call callee _ args => callee.names ++ argumentNames args
  | .get object name => object.names ++ [name.text]
  | .set object name value => object.names ++ name.text :: value.names
  | .this _ _ => []
  | .super _ _ method => [method.text]

@[inherit_doc Expr.names]
def argumentNames : List Expr → List String
  | [] => []
  | argument :: args => argument.names ++ argumentNames args

end

/-- All name tokens have a lexeme with this property. -/
structure Cursor.Named (P : String → Prop) (c : Cursor) : Prop where
  rest : ∀ t ∈ c.rest, t.kind = .identifier → P t.lexeme
  stop : c.stop.kind ≠ .identifier

variable {P : String → Prop}

theorem Cursor.Named.onward {c later : Cursor} (h : c.Named P) (hlater : c.Onward later) :
    later.Named P where
  rest t ht := h.rest t (hlater.rest.subset ht)
  stop := by rw [hlater.stop]; exact h.stop

theorem Cursor.Named.next {c : Cursor} (h : c.Named P) (hkind : c.next.kind = .identifier) :
    P c.next.lexeme := by
  unfold Cursor.next at hkind ⊢
  rcases hrest : c.rest with _ | ⟨t, rest⟩
  · rw [hrest] at hkind
    exact absurd hkind h.stop
  · rw [hrest] at hkind
    exact h.rest t (by rw [hrest]; exact List.mem_cons_self) hkind

namespace Parser

variable {c : Cursor}

/-- All names in the expression have the property. -/
def ExprNamed (P : String → Prop) (e : Expr) (_ : Cursor) : Prop :=
  ∀ text ∈ e.names, P text

/-- All names in the arguments have the property. -/
def ArgumentsNamed (P : String → Prop) (args : List Expr) (_ : Cursor) : Prop :=
  ∀ text ∈ argumentNames args, P text

theorem named_expectName (what : Wanted) (hc : c.Named P) :
    Gives (expectName what) c fun name _ => P name.text :=
  (gives_expect .identifier what).bind fun t _ _ ⟨_, ht, hkind⟩ =>
    gives_pure (hc.rest t ht (TokenKind.eq_identifier_of_sameForm hkind))

theorem Level.names_of_join? {level : Level} {t : Token} {join : Expr → Expr → Expr}
    (h : level.join? t = some join) (left right : Expr) :
    (join left right).names = left.names ++ right.names := by
  unfold Level.join? at h
  split at h <;> cases h <;> rw [Expr.names]

theorem named_acceptJoin (level : Level) :
    Gives (acceptJoin level) c fun join? _ => ∀ join, join? = some join →
      ∀ left right, (join left right).names = left.names ++ right.names := by
  have hgives := gives_acceptJoin (c := c) level
  unfold Gives acceptJoin at hgives ⊢
  rcases hrest : c.rest with _ | ⟨t, rest⟩ <;> rw [hrest] at hgives
  · refine ⟨hgives.1, fun join h => ?_⟩
    cases h
  · rcases hjoin : level.join? t with _ | join <;> simp only [hjoin] at hgives ⊢
    · refine ⟨hgives.1, fun join h => ?_⟩
      cases h
    · refine ⟨hgives.1, fun join' h => ?_⟩
      cases h
      exact Level.names_of_join? hjoin

mutual

theorem named_expression : ∀ (steps : Nat) (c : Cursor), c.Named P →
    Gives (expression steps) c (ExprNamed P)
  | 0, _, _ => gives_fail _
  | steps + 1, c, hc => by
    rw [expression]
    refine (named_joined steps Level.all c hc).bind fun target c₁ h₁ htarget => ?_
    refine (gives_accept .equal).bind fun sign? c₂ h₂ _ => ?_
    rcases sign? with _ | sign
    · exact gives_pure htarget
    refine (named_expression steps c₂ ((hc.onward h₁).onward h₂)).bind fun value c₃ _ hvalue => ?_
    unfold ExprNamed at htarget hvalue
    cases target
    case «variable» name id =>
      refine gives_freshId.bind fun _ _ _ _ => gives_pure ?_
      unfold ExprNamed
      simp_all [Expr.names]
    case get object name =>
      refine gives_pure ?_
      unfold ExprNamed
      simp_all [Expr.names, or_imp, forall_and]
    -- Any other target stays as it is, and the value is dropped.
    all_goals exact (gives_note _ _).bind fun _ _ _ _ => gives_pure htarget

theorem named_joined : ∀ (steps : Nat) (levels : List Level) (c : Cursor), c.Named P →
    Gives (joined steps levels) c (ExprNamed P)
  | 0, _, _, _ => gives_fail _
  | steps + 1, [], c, hc => by
    rw [joined]
    exact named_unary steps c hc
  | steps + 1, level :: tighter, c, hc => by
    rw [joined]
    exact (named_joined steps tighter c hc).bind fun left c₁ h₁ hleft =>
      named_joinedFrom steps level tighter left c₁ (hc.onward h₁) hleft

theorem named_joinedFrom : ∀ (steps : Nat) (level : Level) (tighter : List Level) (left : Expr)
    (c : Cursor), c.Named P → ExprNamed P left c →
    Gives (joinedFrom steps level tighter left) c (ExprNamed P)
  | 0, _, _, _, _, _, _ => gives_fail _
  | steps + 1, level, tighter, left, c, hc, hleft => by
    rw [joinedFrom]
    refine (named_acceptJoin level).bind fun join? c₁ h₁ hjoin => ?_
    rcases join? with _ | join
    · exact gives_pure hleft
    refine (named_joined steps tighter c₁ (hc.onward h₁)).bind fun right c₂ h₂ hright => ?_
    refine named_joinedFrom steps level tighter (join left right) c₂
      ((hc.onward h₁).onward h₂) fun text htext => ?_
    rw [hjoin join rfl] at htext
    exact (List.mem_append.mp htext).elim (hleft text) (hright text)

theorem named_unary : ∀ (steps : Nat) (c : Cursor), c.Named P →
    Gives (unary steps) c (ExprNamed P)
  | 0, _, _ => gives_fail _
  | steps + 1, c, hc => by
    rw [unary]
    refine (gives_accept .bang).bind fun bang? c₁ h₁ _ => ?_
    rcases bang? with _ | bang
    · refine (gives_accept .minus).bind fun minus? c₂ h₂ _ => ?_
      have hc₂ := (hc.onward h₁).onward h₂
      rcases minus? with _ | minus
      · exact (named_primary steps c₂ hc₂).bind fun operand c₃ h₃ hoperand =>
          named_calls steps operand c₃ (hc₂.onward h₃) hoperand
      · exact (named_unary steps c₂ hc₂).bind fun operand _ _ hoperand => gives_pure hoperand
    · exact (named_unary steps c₁ (hc.onward h₁)).bind fun operand _ _ hoperand =>
        gives_pure hoperand

theorem named_calls : ∀ (steps : Nat) (left : Expr) (c : Cursor), c.Named P →
    ExprNamed P left c → Gives (calls steps left) c (ExprNamed P)
  | 0, _, _, _, _ => gives_fail _
  | steps + 1, left, c, hc, hleft => by
    rw [calls]
    refine (gives_accept .leftParen).bind fun paren? c₁ h₁ _ => ?_
    have hc₁ := hc.onward h₁
    rcases paren? with _ | _
    · refine (gives_accept .dot).bind fun dot? c₂ h₂ _ => ?_
      have hc₂ := hc₁.onward h₂
      rcases dot? with _ | _
      · exact gives_pure hleft
      · refine (named_expectName _ hc₂).bind fun name c₃ h₃ hname => ?_
        refine named_calls steps (.get left name) c₃ (hc₂.onward h₃) fun text htext => ?_
        rw [Expr.names] at htext
        rcases List.mem_append.mp htext with htext | htext
        · exact hleft text htext
        · rw [List.mem_singleton.mp htext]
          exact hname
    · have hnil : ArgumentsNamed P [] c₁ := fun text htext => (List.not_mem_nil htext).elim
      refine (gives_listBefore _ hnil (named_arguments steps 0 c₁ hc₁)).bind
        fun args c₂ h₂ hargs => ?_
      refine (gives_expect _ _).bind fun paren c₃ h₃ _ => ?_
      refine named_calls steps (.call left paren.line args) c₃ ((hc₁.onward h₂).onward h₃)
        fun text htext => ?_
      rw [Expr.names] at htext
      exact (List.mem_append.mp htext).elim (hleft text) (hargs text)

theorem named_arguments : ∀ (steps count : Nat) (c : Cursor), c.Named P →
    Gives (arguments steps count) c (ArgumentsNamed P)
  | 0, _, _, _ => gives_fail _
  | steps + 1, count, c, hc => by
    rw [arguments]
    refine (gives_noteExcess count _).bind fun _ c₁ h₁ _ => ?_
    have hc₁ := hc.onward h₁
    refine (named_expression steps c₁ hc₁).bind fun argument c₂ h₂ hargument => ?_
    refine (gives_accept .comma).bind fun comma? c₃ h₃ _ => ?_
    rcases comma? with _ | _
    · refine gives_pure fun text htext => hargument text ?_
      simpa [argumentNames] using htext
    · refine (named_arguments steps (count + 1) c₃ ((hc₁.onward h₂).onward h₃)).bind
        fun args _ _ hargs => gives_pure fun text htext => ?_
      rw [argumentNames] at htext
      exact (List.mem_append.mp htext).elim (hargument text) (hargs text)

theorem named_primary : ∀ (steps : Nat) (c : Cursor), c.Named P →
    Gives (primary steps) c (ExprNamed P)
  | 0, _, _ => gives_fail _
  | steps + 1, c, hc => by
    rw [primary]
    refine gives_peek.bind fun t c₁ _ ⟨hc₁, ht⟩ => ?_
    subst hc₁
    have unnamed : ∀ e : Expr, e.names = [] → ∀ c, ExprNamed P e c := by
      intro e he c text htext
      rw [he] at htext
      cases htext
    have constant : ∀ value : Literal,
        Gives (do skip; return .literal value) c₁ (ExprNamed P) := fun value =>
      gives_skip.bind fun _ c₂ _ _ => gives_pure (unnamed _ rfl c₂)
    split
    · exact constant _
    · exact constant _
    · exact constant _
    · exact constant _
    · exact constant _
    · refine gives_skip.bind fun _ c₂ h₂ _ => ?_
      refine (gives_expect _ _).bind fun _ c₃ h₃ _ => ?_
      refine (named_expectName _ ((hc.onward h₂).onward h₃)).bind fun method _ _ hmethod => ?_
      refine gives_freshId.bind fun _ _ _ _ => gives_pure fun text htext => ?_
      rw [Expr.names, List.mem_singleton] at htext
      rw [htext]
      exact hmethod
    · refine gives_skip.bind fun _ _ _ _ => gives_freshId.bind fun _ c₃ _ _ => ?_
      exact gives_pure (unnamed _ rfl c₃)
    · rename_i hkind
      refine gives_skip.bind fun _ _ _ _ => gives_freshId.bind fun _ _ _ _ => ?_
      refine gives_pure fun text htext => ?_
      rw [Expr.names, List.mem_singleton] at htext
      rw [ht] at hkind htext
      rw [htext]
      exact hc.next hkind
    · refine gives_skip.bind fun _ c₂ h₂ _ => ?_
      refine (named_expression steps c₂ (hc.onward h₂)).bind fun inner _ _ hinner => ?_
      exact (gives_expect _ _).bind fun _ _ _ _ => gives_pure hinner
    · exact gives_fail _

end

theorem named_wholeExpression (steps : Nat) (hc : c.Named P) :
    Gives (wholeExpression steps) c (ExprNamed P) := by
  refine (named_expression steps c hc).bind fun value _ _ hvalue => ?_
  refine gives_isAtEnd.bind fun ends _ _ _ => ?_
  split
  · exact gives_pure hvalue
  · exact gives_fail _

end Parser

theorem Cursor.names_of_expression {c : Cursor} (hc : c.Named P) {e : Expr}
    (h : c.expression.1 = some e) : ∀ text ∈ e.names, P text := by
  have hc' : Cursor.Named P { c with errors := [] } := ⟨hc.rest, hc.stop⟩
  obtain ⟨later, hnamed, -⟩ :=
    (Cursor.run_of_gives (Parser.named_wholeExpression c.steps hc')).2 e h
  exact hnamed

/-! ### Words -/

namespace Lexer

/-- A name is made of letters and digits. -/
theorem Form.isWordChar {lexeme : List Char} (h : Form lexeme .identifier) :
    ∀ c ∈ lexeme, isWordChar c = true := by
  have hsymbols : ∀ entry ∈ symbols, entry.2.ctorIdx ≠ TokenKind.identifier.ctorIdx := by decide
  generalize hkind : TokenKind.identifier = kind at h
  cases h with
  | symbol hmem =>
    subst hkind
    exact absurd rfl (hsymbols _ hmem)
  | string _ => cases hkind
  | integer _ => cases hkind
  | fraction _ _ => cases hkind
  | @word c rest _ hc hrest _ =>
    intro d hd
    rcases List.mem_cons.mp hd with rfl | hd
    · rw [Lexer.isWordChar, hc, Bool.true_or]
    · exact hrest d hd

end Lexer

open Lexer

theorem isWordChar_of_mem_tokens {source : String} {t : Token} (h : t ∈ tokens source)
    (hkind : t.kind = .identifier) : ∀ c ∈ t.lexeme.toList, isWordChar c = true := by
  rcases form_of_mem_tokens h with hend | ⟨lexeme, hform, hlexeme⟩
  · rw [hkind] at hend
    cases hend
  · rw [hlexeme, String.toList_ofList]
    rw [hkind] at hform
    exact hform.isWordChar

theorem Cursor.start_named (source : String) (first : Nat) :
    (Cursor.start (tokens source) first).Named fun text =>
      ∀ c ∈ text.toList, isWordChar c = true where
  rest _ ht hkind := isWordChar_of_mem_tokens ((List.takeWhile_prefix _).subset ht) hkind
  stop := (Cursor.start_lexed source first).stop

end Treewalk
