import Treewalk.Proofs.Sequencing
import Treewalk.Proofs.Syntax.Continuation

/-!
# Reading tokens in another place

**Tokens on other lines, read with later numbers, give the same tree and the same errors, in that
place.**  This holds of broken sources as well: a parser copies lines into trees and errors and hands
out numbers, and it never looks at either.
-/

namespace Treewalk

/-- A range of numbers is left out: from `first` on they move on by `width`. -/
def withGap (first width id : Nat) : Nat :=
  if id < first then id else id + width

theorem withGap_of_lt {first id : Nat} (h : id < first) (width : Nat) :
    withGap first width id = id :=
  if_pos h

theorem withGap_of_le {first id : Nat} (h : first ≤ id) (width : Nat) :
    withGap first width id = id + width :=
  if_neg (Nat.not_lt_of_le h)

theorem withGap_injective (first width : Nat) : Function.Injective (withGap first width) := by
  intro a b h
  unfold withGap at h
  split at h <;> split at h <;> omega

/-- An error on another line. -/
def SyntaxError.move (f : Nat → Nat) (e : SyntaxError) : SyntaxError :=
  ⟨e.token.move f, e.fault⟩

/-- How the lines of tokens change, and from which number on those of references, by how much. -/
structure Relocation where
  line : Nat → Nat
  first : Nat
  width : Nat

/-- The change of a tree. -/
def Relocation.shift (ρ : Relocation) : Shift :=
  ⟨ρ.line, withGap ρ.first ρ.width⟩

/-- The second cursor stands in the other place where the first stands in its own. -/
structure Cursor.Relocated (ρ : Relocation) (c c' : Cursor) : Prop where
  le : ρ.first ≤ c.nextId
  eq : c' = ⟨c.rest.map (Token.move ρ.line), c.stop.move ρ.line, c.nextId + ρ.width,
    c.errors.map (SyntaxError.move ρ.line)⟩

namespace Parser

variable {ρ : Relocation} {α β γ δ : Type}

/-- A parser that does in the other place what the first does in its own. -/
abbrev Relocates (ρ : Relocation) (u : α → β) (p : Parser α) (q : Parser β) : Prop :=
  Tracks (Cursor.Relocated ρ) (SyntaxError.move ρ.line) u p q

/-! ### Single tokens -/

theorem relocates_fail (fault : SyntaxFault) (u : α → β) :
    Relocates ρ u (fail fault) (fail fault) := by
  rintro ⟨rest, stop, nextId, errors⟩ _ ⟨hle, rfl⟩
  rcases rest with _ | ⟨t, rest⟩
  · exact .error ⟨hle, rfl⟩
  · exact .error ⟨hle, rfl⟩

theorem relocates_peek : Relocates ρ (Token.move ρ.line) peek peek := by
  rintro ⟨rest, stop, nextId, errors⟩ _ ⟨hle, rfl⟩
  rcases rest with _ | ⟨t, rest⟩
  · exact .ok ⟨hle, rfl⟩
  · exact .ok ⟨hle, rfl⟩

theorem relocates_skip : Relocates ρ id skip skip := by
  rintro ⟨rest, stop, nextId, errors⟩ _ ⟨hle, rfl⟩
  rcases rest with _ | ⟨t, rest⟩
  · exact .ok ⟨hle, rfl⟩
  · exact .ok ⟨hle, rfl⟩

theorem relocates_isNext (kind : TokenKind) : Relocates ρ id (isNext kind) (isNext kind) := by
  rintro ⟨rest, stop, nextId, errors⟩ _ ⟨hle, rfl⟩
  rcases rest with _ | ⟨t, rest⟩
  · exact .ok ⟨hle, rfl⟩
  · exact .ok ⟨hle, rfl⟩

theorem relocates_isAtEnd : Relocates ρ id isAtEnd isAtEnd := by
  rintro ⟨rest, stop, nextId, errors⟩ _ ⟨hle, rfl⟩
  rcases rest with _ | ⟨t, rest⟩
  · exact .ok ⟨hle, rfl⟩
  · exact .ok ⟨hle, rfl⟩

theorem relocates_note (token : Token) (fault : SyntaxFault) :
    Relocates ρ id (note token fault) (note (token.move ρ.line) fault) := by
  rintro c _ ⟨hle, rfl⟩
  refine .ok ⟨hle, ?_⟩
  simp [Cursor.note, SyntaxError.move]

/-- Numbers are given out behind the gap. -/
theorem relocates_freshId : Relocates ρ ρ.shift.id freshId freshId := by
  rintro c _ ⟨hle, rfl⟩
  show EndAlike _ _ _ _ (.ok (c.nextId + ρ.width) _)
  rw [← withGap_of_le hle]
  refine .ok ⟨Nat.le_succ_of_le hle, ?_⟩
  rw [withGap_of_le hle, Nat.add_right_comm]

theorem relocates_accept (kind : TokenKind) :
    Relocates ρ (Option.map (Token.move ρ.line)) (accept kind) (accept kind) := by
  rintro ⟨rest, stop, nextId, errors⟩ _ ⟨hle, rfl⟩
  unfold accept
  rcases rest with _ | ⟨t, rest⟩
  · exact .ok ⟨hle, rfl⟩
  · have hkind : (t.move ρ.line).kind = t.kind := rfl
    simp only [List.map_cons, hkind]
    split
    · exact .ok (a := some t) ⟨hle, rfl⟩
    · exact .ok (a := none) ⟨hle, rfl⟩

theorem relocates_expect (kind : TokenKind) (what : Wanted) :
    Relocates ρ (Token.move ρ.line) (expect kind what) (expect kind what) := by
  refine (relocates_accept kind).bind fun t? => ?_
  rcases t? with _ | t
  · exact relocates_fail _ _
  · exact tracks_pure rfl

theorem relocates_expectName (what : Wanted) :
    Relocates ρ (Name.move ρ.shift) (expectName what) (expectName what) :=
  (relocates_expect .identifier what).map fun _ => rfl

theorem relocates_noteExcess (count : Nat) (fault : SyntaxFault) :
    Relocates ρ id (noteExcess count fault) (noteExcess count fault) := by
  unfold noteExcess
  split
  · exact relocates_peek.bind fun t => relocates_note t fault
  · exact tracks_pure rfl

theorem relocates_listBefore (kind : TokenKind) {u : List α → List β} (hnil : u [] = [])
    {items : Parser (List α)} {items' : Parser (List β)} (h : Relocates ρ u items items') :
    Relocates ρ u (listBefore kind items) (listBefore kind items') := by
  refine (relocates_isNext kind).bind fun isNext => ?_
  cases isNext
  · exact h
  · exact tracks_pure hnil.symm

/-- An operator joins moved operands as it joined those in their old places. -/
theorem relocates_acceptJoin (level : Level) {u : α → β}
    {f : Option (Expr → Expr → Expr) → Parser α} {g : Option (Expr → Expr → Expr) → Parser β}
    (hnone : Relocates ρ u (f none) (g none))
    (hsome : ∀ join join' : Expr → Expr → Expr,
      (∀ left right, join' (left.move ρ.shift) (right.move ρ.shift) = (join left right).move ρ.shift) →
      Relocates ρ u (f (some join)) (g (some join'))) :
    Relocates ρ u (acceptJoin level >>= f) (acceptJoin level >>= g) := by
  rintro ⟨rest, stop, nextId, errors⟩ _ ⟨hle, rfl⟩
  have hstays : ∀ {c : Cursor} {t : Token}, c.rest.head? = some t → level.join? t = none →
      acceptJoin level c = .ok none c := by
    intro c t hc hjoin
    obtain ⟨rest, hrest⟩ := List.head?_eq_some_iff.mp hc
    simp only [acceptJoin, hrest, hjoin]
  have hreads : ∀ {c : Cursor} {t : Token} {rest : List Token} {join : Expr → Expr → Expr},
      c.rest = t :: rest → level.join? t = some join →
      acceptJoin level c = .ok (some join) { c with rest } := by
    intro c t rest join hc hjoin
    simp only [acceptJoin, hc, hjoin]
  rcases rest with _ | ⟨t, rest⟩
  · exact hnone _ _ ⟨hle, rfl⟩
  · rcases hjoin : level.join? t with _ | join
    · rw [bind_of_ok (hstays rfl hjoin), bind_of_ok (hstays rfl (Level.join?_move_none hjoin ρ.line))]
      exact hnone _ _ ⟨hle, rfl⟩
    · obtain ⟨join', hjoin', hsame⟩ := Level.join?_move hjoin ρ.shift
      rw [bind_of_ok (hreads rfl hjoin), bind_of_ok (hreads rfl hjoin')]
      exact hsome join join' hsame _ _ ⟨hle, rfl⟩

/-! ### Expressions -/

mutual

theorem relocates_expression : ∀ steps : Nat,
    Relocates ρ (Expr.move ρ.shift) (expression steps) (expression steps)
  | 0 => relocates_fail _ _
  | steps + 1 => by
    rw [expression]
    refine (relocates_joined steps Level.all).bind fun target => ?_
    refine (relocates_accept .equal).bind fun sign? => ?_
    rcases sign? with _ | sign
    · exact tracks_pure rfl
    refine (relocates_expression steps).bind fun value => ?_
    cases target
    case «variable» name id => exact relocates_freshId.map fun _ => rfl
    case get object name => exact tracks_pure rfl
    all_goals exact (relocates_note sign _).bind fun _ => tracks_pure rfl

theorem relocates_joined : ∀ (steps : Nat) (levels : List Level),
    Relocates ρ (Expr.move ρ.shift) (joined steps levels) (joined steps levels)
  | 0, _ => relocates_fail _ _
  | steps + 1, [] => by
    rw [joined]
    exact relocates_unary steps
  | steps + 1, level :: tighter => by
    rw [joined]
    exact (relocates_joined steps tighter).bind fun left =>
      relocates_joinedFrom steps level tighter left

theorem relocates_joinedFrom : ∀ (steps : Nat) (level : Level) (tighter : List Level) (left : Expr),
    Relocates ρ (Expr.move ρ.shift) (joinedFrom steps level tighter left)
      (joinedFrom steps level tighter (left.move ρ.shift))
  | 0, _, _, _ => relocates_fail _ _
  | steps + 1, level, tighter, left => by
    rw [joinedFrom, joinedFrom]
    refine relocates_acceptJoin level (tracks_pure rfl) fun join join' hjoin => ?_
    refine (relocates_joined steps tighter).bind fun right => ?_
    rw [hjoin]
    exact relocates_joinedFrom steps level tighter (join left right)

theorem relocates_unary : ∀ steps : Nat,
    Relocates ρ (Expr.move ρ.shift) (unary steps) (unary steps)
  | 0 => relocates_fail _ _
  | steps + 1 => by
    rw [unary]
    refine (relocates_accept .bang).bind fun bang? => ?_
    rcases bang? with _ | bang
    · refine (relocates_accept .minus).bind fun minus? => ?_
      rcases minus? with _ | minus
      · exact (relocates_primary steps).bind fun operand => relocates_calls steps operand
      · exact (relocates_unary steps).map fun _ => rfl
    · exact (relocates_unary steps).map fun _ => rfl

theorem relocates_calls : ∀ (steps : Nat) (left : Expr),
    Relocates ρ (Expr.move ρ.shift) (calls steps left) (calls steps (left.move ρ.shift))
  | 0, _ => relocates_fail _ _
  | steps + 1, left => by
    rw [calls, calls]
    refine (relocates_accept .leftParen).bind fun paren? => ?_
    rcases paren? with _ | paren
    · refine (relocates_accept .dot).bind fun dot? => ?_
      rcases dot? with _ | dot
      · exact tracks_pure rfl
      · exact (relocates_expectName _).bind fun name => relocates_calls steps (.get left name)
    · refine (relocates_listBefore .rightParen rfl (relocates_arguments steps 0)).bind
        fun args => ?_
      exact (relocates_expect _ _).bind fun closing =>
        relocates_calls steps (.call left closing.line args)

theorem relocates_arguments : ∀ steps count : Nat,
    Relocates ρ (moveArguments ρ.shift) (arguments steps count) (arguments steps count)
  | 0, _ => relocates_fail _ _
  | steps + 1, count => by
    rw [arguments]
    refine (relocates_noteExcess count _).bind fun _ => ?_
    refine (relocates_expression steps).bind fun argument => ?_
    refine (relocates_accept .comma).bind fun comma? => ?_
    rcases comma? with _ | comma
    · exact tracks_pure rfl
    · exact (relocates_arguments steps (count + 1)).map fun _ => rfl

theorem relocates_primary : ∀ steps : Nat,
    Relocates ρ (Expr.move ρ.shift) (primary steps) (primary steps)
  | 0 => relocates_fail _ _
  | steps + 1 => by
    rw [primary]
    refine relocates_peek.bind fun t => ?_
    have hkind : (t.move ρ.line).kind = t.kind := rfl
    rw [hkind]
    split
    · exact relocates_skip.bind fun _ => tracks_pure rfl
    · exact relocates_skip.bind fun _ => tracks_pure rfl
    · exact relocates_skip.bind fun _ => tracks_pure rfl
    · exact relocates_skip.bind fun _ => tracks_pure rfl
    · exact relocates_skip.bind fun _ => tracks_pure rfl
    · refine relocates_skip.bind fun _ => (relocates_expect _ _).bind fun _ => ?_
      exact (relocates_expectName _).bind fun method => relocates_freshId.map fun _ => rfl
    · exact relocates_skip.bind fun _ => relocates_freshId.map fun _ => rfl
    · exact relocates_skip.bind fun _ => relocates_freshId.map fun _ => rfl
    · refine relocates_skip.bind fun _ => (relocates_expression steps).bind fun inner => ?_
      exact (relocates_expect _ _).map fun _ => rfl
    · exact relocates_fail _ _

end

/-! ### Parts of statements -/

/-- A part that a token closes. -/
theorem relocates_closed {p : Parser α} {q : Parser β} {u : α → β} {v : γ → δ}
    (hp : Relocates ρ u p q) (kind : TokenKind) (what : Wanted) {r : α → γ} {r' : β → δ}
    (hr : ∀ a, r' (u a) = v (r a)) :
    Relocates ρ v (do let a ← p; let _ ← expect kind what; return r a)
      (do let b ← q; let _ ← expect kind what; return r' b) :=
  hp.bind fun a => (relocates_expect kind what).map fun _ => hr a

theorem relocates_expressionBefore (steps : Nat) (kind : TokenKind) :
    Relocates ρ (Option.map (Expr.move ρ.shift))
      (expressionBefore steps kind) (expressionBefore steps kind) := by
  refine (relocates_isNext kind).bind fun isNext => ?_
  cases isNext
  · exact (relocates_expression steps).map fun _ => rfl
  · exact tracks_pure rfl

theorem relocates_initializer (steps : Nat) :
    Relocates ρ (Option.map (Expr.move ρ.shift)) (initializer steps) (initializer steps) := by
  refine (relocates_accept .equal).bind fun sign? => ?_
  rcases sign? with _ | sign
  · exact tracks_pure rfl
  · exact (relocates_expression steps).map fun _ => rfl

theorem relocates_varDeclaration (steps : Nat) :
    Relocates ρ (Stmt.move ρ.shift) (varDeclaration steps) (varDeclaration steps) :=
  (relocates_expectName _).bind fun _ =>
    relocates_closed (relocates_initializer steps) _ _ fun _ => rfl

theorem relocates_expressionStatement (steps : Nat) :
    Relocates ρ (Stmt.move ρ.shift) (expressionStatement steps) (expressionStatement steps) :=
  relocates_closed (relocates_expression steps) _ _ fun _ => rfl

theorem relocates_printStatement (steps : Nat) :
    Relocates ρ (Stmt.move ρ.shift) (printStatement steps) (printStatement steps) :=
  relocates_closed (relocates_expression steps) _ _ fun _ => rfl

theorem relocates_returnStatement (steps line : Nat) :
    Relocates ρ (Stmt.move ρ.shift) (returnStatement steps line)
      (returnStatement steps (ρ.line line)) :=
  relocates_closed (relocates_expressionBefore steps .semicolon) _ _ fun _ => rfl

theorem relocates_forInitializer (steps : Nat) :
    Relocates ρ (Option.map (Stmt.move ρ.shift)) (forInitializer steps) (forInitializer steps) := by
  refine (relocates_accept .semicolon).bind fun semicolon? => ?_
  rcases semicolon? with _ | semicolon
  · refine (relocates_accept .kwVar).bind fun keyword? => ?_
    rcases keyword? with _ | keyword
    · exact (relocates_expressionStatement steps).map fun _ => rfl
    · exact (relocates_varDeclaration steps).map fun _ => rfl
  · exact tracks_pure rfl

theorem relocates_superclassClause :
    Relocates ρ (Option.map (Reference.move ρ.shift)) superclassClause superclassClause := by
  refine (relocates_accept .less).bind fun sign? => ?_
  rcases sign? with _ | sign
  · exact tracks_pure rfl
  · exact (relocates_expectName _).bind fun _ => relocates_freshId.map fun _ => rfl

theorem relocates_parameters : ∀ steps count : Nat,
    Relocates ρ (List.map (Name.move ρ.shift)) (parameters steps count) (parameters steps count)
  | 0, _ => relocates_fail _ _
  | steps + 1, count => by
    rw [parameters]
    refine (relocates_noteExcess count _).bind fun _ => (relocates_expectName _).bind fun _ => ?_
    refine (relocates_accept .comma).bind fun comma? => ?_
    rcases comma? with _ | comma
    · exact tracks_pure rfl
    · exact (relocates_parameters steps (count + 1)).map fun _ => rfl

theorem boundary_move (f : Nat → Nat) (last : Token) (ts : List Token) :
    boundary (last.move f) (ts.map (Token.move f)) = (boundary last ts).map (Token.move f) := by
  induction ts generalizing last with
  | nil => rfl
  | cons t ts ih =>
    have hkind : ∀ t : Token, (t.move f).kind = t.kind := fun _ => rfl
    simp only [List.map_cons, boundary, hkind]
    split
    · rfl
    · exact ih t

theorem resume_move (f : Nat → Nat) (ts : List Token) :
    resume (ts.map (Token.move f)) = (resume ts).map (Token.move f) := by
  cases ts with
  | nil => rfl
  | cons t ts => exact boundary_move f t ts

/-- Recovery skips the same tokens and keeps the number that comes next. -/
theorem relocates_recovering {p : Parser α} {q : Parser β} {u : α → β} (hp : Relocates ρ u p q) :
    Relocates ρ (Option.map u) (recovering p) (recovering q) := by
  intro c c' hc
  have h := hp c c' hc
  unfold recovering
  generalize p c = outcome at h ⊢
  generalize q c' = outcome' at h ⊢
  cases h with
  | ok hlater => exact .ok hlater
  | error hlater =>
    obtain ⟨hle, rfl⟩ := hlater
    refine .ok (a := none) ⟨hle, ?_⟩
    simp [Cursor.note, resume_move]

/-! ### Statements -/

mutual

theorem relocates_declaration : ∀ steps : Nat,
    Relocates ρ (Stmt.move ρ.shift) (declaration steps) (declaration steps)
  | 0 => relocates_fail _ _
  | steps + 1 => by
    rw [declaration]
    refine (relocates_accept .kwClass).bind fun class? => ?_
    rcases class? with _ | _
    · refine (relocates_accept .kwFun).bind fun fun? => ?_
      rcases fun? with _ | _
      · refine (relocates_accept .kwVar).bind fun var? => ?_
        rcases var? with _ | _
        · exact relocates_statement steps
        · exact relocates_varDeclaration steps
      · exact (relocates_function steps .function).map fun _ => rfl
    · exact relocates_classDeclaration steps

theorem relocates_classDeclaration : ∀ steps : Nat,
    Relocates ρ (Stmt.move ρ.shift) (classDeclaration steps) (classDeclaration steps)
  | 0 => relocates_fail _ _
  | steps + 1 => by
    rw [classDeclaration]
    refine (relocates_expectName _).bind fun _ => relocates_superclassClause.bind fun _ => ?_
    refine (relocates_expect _ _).bind fun _ => ?_
    exact relocates_closed (relocates_methods steps) _ _ fun _ => rfl

theorem relocates_methods : ∀ steps : Nat,
    Relocates ρ (moveMethods ρ.shift) (methods steps) (methods steps)
  | 0 => relocates_fail _ _
  | steps + 1 => by
    rw [methods]
    refine (relocates_isNext .rightBrace).bind fun closing => ?_
    refine relocates_isAtEnd.bind fun atEnd => ?_
    simp only [id_eq]
    split
    · exact tracks_pure rfl
    · refine (relocates_function steps .method).bind fun method => ?_
      exact (relocates_methods steps).map fun _ => rfl

theorem relocates_function : ∀ (steps : Nat) (form : FunctionForm),
    Relocates ρ (FunctionDecl.move ρ.shift) (function steps form) (function steps form)
  | 0, _ => relocates_fail _ _
  | steps + 1, form => by
    rw [function]
    refine (relocates_expectName _).bind fun _ => (relocates_expect _ _).bind fun _ => ?_
    refine (relocates_listBefore .rightParen rfl (relocates_parameters steps 0)).bind fun _ => ?_
    refine (relocates_expect _ _).bind fun _ => (relocates_expect _ _).bind fun _ => ?_
    exact (relocates_block steps).map fun _ => rfl

theorem relocates_block : ∀ steps : Nat,
    Relocates ρ (moveStatements ρ.shift) (block steps) (block steps)
  | 0 => relocates_fail _ _
  | steps + 1 => by
    rw [block]
    exact relocates_closed (relocates_declarations steps true) _ _ fun _ => rfl

theorem relocates_declarations : ∀ (steps : Nat) (inBlock : Bool),
    Relocates ρ (moveStatements ρ.shift) (declarations steps inBlock) (declarations steps inBlock)
  | 0, _ => relocates_fail _ _
  | steps + 1, inBlock => by
    rw [declarations]
    refine (relocates_isNext .rightBrace).bind fun closing => ?_
    refine relocates_isAtEnd.bind fun atEnd => ?_
    simp only [id_eq]
    split
    · exact tracks_pure rfl
    · refine (relocates_recovering (relocates_declaration steps)).bind fun statement? => ?_
      refine (relocates_declarations steps inBlock).bind fun others => tracks_pure ?_
      rw [moveStatements_append]
      cases statement? <;> rfl

theorem relocates_statement : ∀ steps : Nat,
    Relocates ρ (Stmt.move ρ.shift) (statement steps) (statement steps)
  | 0 => relocates_fail _ _
  | steps + 1 => by
    rw [statement]
    refine relocates_peek.bind fun t => ?_
    have hkind : (t.move ρ.line).kind = t.kind := rfl
    rw [hkind]
    split
    · exact relocates_skip.bind fun _ => relocates_forStatement steps
    · exact relocates_skip.bind fun _ => relocates_ifStatement steps
    · exact relocates_skip.bind fun _ => relocates_printStatement steps
    · exact relocates_skip.bind fun _ => relocates_returnStatement steps t.line
    · exact relocates_skip.bind fun _ => relocates_whileStatement steps
    · exact relocates_skip.bind fun _ => (relocates_block steps).map fun _ => rfl
    · exact relocates_expressionStatement steps

theorem relocates_forStatement : ∀ steps : Nat,
    Relocates ρ (Stmt.move ρ.shift) (forStatement steps) (forStatement steps)
  | 0 => relocates_fail _ _
  | steps + 1 => by
    rw [forStatement]
    refine (relocates_expect _ _).bind fun _ => (relocates_forInitializer steps).bind fun _ => ?_
    refine (relocates_expressionBefore steps .semicolon).bind fun _ => ?_
    refine (relocates_expect _ _).bind fun _ => ?_
    refine (relocates_expressionBefore steps .rightParen).bind fun _ => ?_
    refine (relocates_expect _ _).bind fun _ => ?_
    exact (relocates_statement steps).map fun _ => forLoop_move _ _ _ _ _

theorem relocates_ifStatement : ∀ steps : Nat,
    Relocates ρ (Stmt.move ρ.shift) (ifStatement steps) (ifStatement steps)
  | 0 => relocates_fail _ _
  | steps + 1 => by
    rw [ifStatement]
    refine (relocates_expect _ _).bind fun _ => (relocates_expression steps).bind fun _ => ?_
    refine (relocates_expect _ _).bind fun _ => (relocates_statement steps).bind fun _ => ?_
    refine (relocates_accept .kwElse).bind fun else? => ?_
    rcases else? with _ | _
    · exact tracks_pure rfl
    · exact (relocates_statement steps).map fun _ => rfl

theorem relocates_whileStatement : ∀ steps : Nat,
    Relocates ρ (Stmt.move ρ.shift) (whileStatement steps) (whileStatement steps)
  | 0 => relocates_fail _ _
  | steps + 1 => by
    rw [whileStatement]
    refine (relocates_expect _ _).bind fun _ => (relocates_expression steps).bind fun _ => ?_
    refine (relocates_expect _ _).bind fun _ => ?_
    exact (relocates_statement steps).map fun _ => rfl

end

theorem relocates_wholeExpression (steps : Nat) :
    Relocates ρ (Expr.move ρ.shift) (wholeExpression steps) (wholeExpression steps) := by
  refine (relocates_expression steps).bind fun value => relocates_isAtEnd.bind fun atEnd => ?_
  cases atEnd
  · exact relocates_fail _ _
  · exact tracks_pure rfl

end Parser

/-! ### Whole sources -/

namespace Cursor

variable {ρ : Relocation} {c c' : Cursor}

theorem run_relocated {α β : Type} {u : α → β} {p : Parser α} {q : Parser β}
    (h : Parser.Relocates ρ u p q) (hc : c.Relocated ρ c') {result? : Option α}
    {errors : List SyntaxError} {later : Cursor} (hrun : c.run p = (result?, errors, later)) :
    ∃ later', c'.run q = (result?.map u, errors.map (SyntaxError.move ρ.line), later')
      ∧ later.Relocated ρ later' := by
  obtain ⟨hle, rfl⟩ := hc
  have hends := h { c with errors := [] } _ ⟨hle, rfl⟩
  unfold Cursor.run at hrun ⊢
  generalize p { c with errors := [] } = outcome at hends hrun
  simp only [List.map_nil] at hends
  generalize q _ = outcome' at hends ⊢
  cases hends with
  | ok hlater =>
    obtain ⟨hle, rfl⟩ := hlater
    cases hrun
    exact ⟨_, rfl, hle, rfl⟩
  | error hlater =>
    obtain ⟨hle, rfl⟩ := hlater
    cases hrun
    exact ⟨_, by simp, hle, rfl⟩

theorem steps_relocated (hc : c.Relocated ρ c') : c'.steps = c.steps := by
  rw [hc.eq, steps, List.length_map, steps]

/-- A program is read in another place. -/
theorem program_relocated (hc : c.Relocated ρ c') {program : Program} {errors : List SyntaxError}
    {cursor : Cursor} (hread : c.program = (program, errors, cursor)) :
    ∃ cursor', c'.program
        = (moveStatements ρ.shift program, errors.map (SyntaxError.move ρ.line), cursor')
      ∧ cursor.Relocated ρ cursor' := by
  unfold Cursor.program at hread ⊢
  rcases hrun : c.run (Parser.declarations c.steps false) with ⟨statements?, found, later⟩
  obtain ⟨later', hrun', hlater⟩ := run_relocated (Parser.relocates_declarations c.steps false) hc hrun
  rw [hrun] at hread
  cases hread
  rw [steps_relocated hc, hrun']
  refine ⟨later', ?_, hlater⟩
  rcases statements? with _ | statements <;> rfl

/-- So is a single expression. -/
theorem expression_relocated (hc : c.Relocated ρ c') {value? : Option Expr}
    {errors : List SyntaxError} {cursor : Cursor} (hread : c.expression = (value?, errors, cursor)) :
    ∃ cursor', c'.expression
        = (value?.map (Expr.move ρ.shift), errors.map (SyntaxError.move ρ.line), cursor')
      ∧ cursor.Relocated ρ cursor' := by
  have h := run_relocated (Parser.relocates_wholeExpression c.steps) hc hread
  rw [← steps_relocated hc] at h
  exact h

end Cursor

end Treewalk
