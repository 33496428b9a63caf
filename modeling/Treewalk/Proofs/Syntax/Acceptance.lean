import Treewalk.Proofs.Syntax.Comparing
import Treewalk.Proofs.Syntax.Recognition

/-!
# The parser accepts its grammar

**The parser notes no error exactly for the sequences of tokens that the grammar derives.**  What
it reads without an error is derivable; here it is shown to read what is derivable.

Behind a statement that an `else` could go on with there must be none.  Where the grammar leaves
open to which `if` an `else` belongs, the tokens can be derived with the nearest `if`, and the
parser reads them in this way.
-/

namespace Treewalk

open Grammar

namespace Parser

variable {α : Type} {p : Parser α} {u v rest : List Token} {t : Token} {kind : TokenKind}

/-! ### Parts of statements -/

section Parts

variable {steps : Nat}

theorem takes_expressionBefore (hu : Derives maxArity (.optional (.part .expression)) u)
    (hkind : oneOfKinds expressionStarts kind = false) (hcloser : oneOfKinds closers kind = true)
    (hrest : StartsWith kind rest) (hsteps : 16 * u.length + 10 ≤ steps) :
    Takes (expressionBefore steps kind) u rest :=
  takes_unless hu hkind hrest fun hpart =>
    (takes_expression steps u rest hpart (hrest.closed hcloser) hsteps).map

theorem takes_initializer
    (hu : Derives maxArity (.optional (.sequence [.token .equal, .part .expression])) u)
    (hrest : StartsWith .semicolon rest) (hsteps : 16 * u.length ≤ steps) :
    Takes (initializer steps) u rest := by
  have hclosed : Closed rest := hrest.closed rfl
  rcases derives_optional_iff.mp hu with hu | rfl
  · obtain ⟨t, v, rfl, ht, hv⟩ := derives_sequence_token_iff.mp hu
    rw [List.length_cons] at hsteps
    exact accepts_present ht
      (takes_expression steps v rest (derives_single_iff.mp hv) hclosed (by omega)).map
  · exact accepts_absent (hclosed.ne rfl) (takes_pure none)

/-- What is derived behind the first token of a rule. -/
theorem derives_behind {limit : Nat} {part : Part} {forms : List Form}
    (hrule : part.rule = .sequence (.token kind :: forms))
    (h : Derives limit (.part part) (t :: u)) :
    t.kind.sameForm kind = true ∧ Derives limit (.sequence forms) u := by
  rw [derives_part_iff, hrule] at h
  obtain ⟨t', v, heq, ht, hv⟩ := derives_sequence_token_iff.mp h
  cases heq
  exact ⟨ht, hv⟩

theorem takes_varDeclaration (hu : Derives maxArity (.part .varDecl) (t :: u))
    (hsteps : 16 * u.length ≤ steps) : Takes (varDeclaration steps) u rest := by
  obtain ⟨name, v, rfl, hname, hv⟩ := derives_sequence_token_iff.mp (derives_behind rfl hu).2
  obtain ⟨w, x, rfl, hw, hx⟩ := derives_pair_iff.mp hv
  obtain ⟨closing, rfl, hclosing⟩ := derives_token_iff.mp hx
  simp only [List.length_append, List.length_cons] at hsteps
  apply accepts_expectName hname
  intro name
  refine Takes.seq (takes_initializer hw hclosing (by omega)) ?_
  intro value
  exact accepts_expect hclosing (takes_pure _)

/-- An expression that a semicolon closes. -/
theorem takes_closedExpression {what : Wanted} {r : Expr → Stmt}
    (hu : Derives maxArity (.sequence [.part .expression, .token .semicolon]) u)
    (hsteps : 16 * u.length ≤ steps) :
    Takes (do let value ← expression steps; let _ ← expect .semicolon what; return r value) u
      rest := by
  obtain ⟨v, w, rfl, hv, hw⟩ := derives_pair_iff.mp hu
  obtain ⟨closing, rfl, hclosing⟩ := derives_token_iff.mp hw
  simp only [List.length_append, List.length_cons] at hsteps
  apply Takes.seq (takes_expression steps v _ hv (closed_cons hclosing rfl) (by omega))
  intro value
  exact accepts_expect hclosing (takes_pure _)

theorem takes_expressionStatement (hu : Derives maxArity (.part .exprStmt) u)
    (hsteps : 16 * u.length ≤ steps) : Takes (expressionStatement steps) u rest :=
  takes_closedExpression (derives_part_iff.mp hu) hsteps

theorem takes_printStatement (hu : Derives maxArity (.part .printStmt) (t :: u))
    (hsteps : 16 * u.length ≤ steps) : Takes (printStatement steps) u rest :=
  takes_closedExpression (derives_behind rfl hu).2 hsteps

theorem takes_returnStatement {line : Nat} (hu : Derives maxArity (.part .returnStmt) (t :: u))
    (hsteps : 16 * u.length ≤ steps) : Takes (returnStatement steps line) u rest := by
  obtain ⟨v, w, rfl, hv, hw⟩ := derives_pair_iff.mp (derives_behind rfl hu).2
  obtain ⟨closing, rfl, hclosing⟩ := derives_token_iff.mp hw
  simp only [List.length_append, List.length_cons] at hsteps
  refine Takes.seq (takes_expressionBefore hv rfl rfl hclosing (by omega)) ?_
  intro value
  exact accepts_expect hclosing (takes_pure _)

theorem takes_forInitializer
    (hu : Derives maxArity (.oneOf [.part .varDecl, .part .exprStmt, .token .semicolon]) u)
    (hsteps : 16 * u.length ≤ steps) : Takes (forInitializer steps) u rest := by
  simp only [derives_oneOf_iff, List.mem_cons, List.not_mem_nil, or_false, exists_eq_or_imp,
    exists_eq_left] at hu
  rcases hu with hu | hu | hu
  · obtain ⟨keyword, v, rfl, hkeyword, -⟩ := derives_sequence_token_iff.mp (derives_part_iff.mp hu)
    rw [List.length_cons] at hsteps
    exact accepts_absent (next_ne hkeyword rfl)
      (accepts_present hkeyword (takes_varDeclaration hu (by omega)).map)
  · apply accepts_absent (hu.head_ne rfl rest)
    apply accepts_absent (hu.head_ne rfl rest)
    exact (takes_expressionStatement hu hsteps).map
  · obtain ⟨semicolon, rfl, hsemicolon⟩ := derives_token_iff.mp hu
    exact accepts_present hsemicolon (takes_pure none)

theorem takes_superclassClause
    (hu : Derives maxArity (.optional (.sequence [.token .less, .token .identifier])) u)
    (hrest : StartsWith .leftBrace rest) : Takes superclassClause u rest := by
  rcases derives_optional_iff.mp hu with hu | rfl
  · obtain ⟨sign, v, rfl, hsign, hv⟩ := derives_sequence_token_iff.mp hu
    obtain ⟨name, rfl, hname⟩ := derives_token_iff.mp (derives_single_iff.mp hv)
    apply accepts_present hsign
    apply accepts_expectName hname
    intro _
    exact accepts_freshId fun _ => takes_pure _
  · exact accepts_absent (hrest.ne rfl) (takes_pure none)

theorem takes_parameters : ∀ (steps count : Nat) (u rest : List Token),
    Entries (.token .identifier) count u → StartsWith .rightParen rest → u.length + 1 ≤ steps →
    Takes (parameters steps count) u rest
  | 0, _, _, _, _, _, hsteps => by omega
  | steps + 1, count, u, rest, hu, hrest, hsteps => by
    rw [parameters]
    refine takes_entries hu hrest (fun v w huv hv _ => ?_) fun v comma w huv hw => ?_
    · obtain ⟨name, rfl, hname⟩ := derives_token_iff.mp hv
      exact (accepts_name hname).takes
    · subst huv
      simp only [List.length_append, List.length_cons] at hsteps
      exact takes_parameters steps (count + 1) w rest hw hrest (by omega)

theorem takes_recovering (hp : Takes p u rest) : Takes (recovering p) u rest := by
  intro c hc
  obtain ⟨a, later, hrun, hrest, herrors, -⟩ := hp c hc
  refine ⟨some a, later, ?_, hrest, herrors, trivial⟩
  unfold recovering
  rw [hrun]

end Parts

/-! ### Statements -/

/-- An `else` with a statement can follow, and the whole is a statement. -/
def Open (u : List Token) : Prop :=
  ∀ (keyword : Token) (v : List Token), keyword.kind.sameForm .kwElse = true →
    Derives maxArity (.part .statement) v → Derives maxArity (.part .statement) (u ++ keyword :: v)

/-- The next token is no `else`. -/
def NoElse (rest : List Token) : Prop :=
  ∀ t ∈ rest.head?, t.kind.sameForm .kwElse = false

/-- A statement that ends in an open one is open. -/
theorem Open.within (h : Open u) (around : List Token → List Token)
    (hadd : ∀ v w, around (v ++ w) = around v ++ w)
    (haround : ∀ w, Derives maxArity (.part .statement) w →
      Derives maxArity (.part .statement) (around w)) : Open (around u) := by
  intro keyword v hkeyword hv
  rw [← hadd]
  exact haround _ (h keyword v hkeyword hv)

/-- What can stand behind the first branch of an `if`. -/
def elseClause : Form :=
  .optional (.sequence [.token .kwElse, .part .statement])

/-- The branches of an `if` can be derived with an `else` that belongs to the nearest `if`: if the
first branch is open, then no `else` follows it. -/
theorem nearest_else {x : List Token} (around : List Token → List Token)
    (hadd : ∀ v w, around (v ++ w) = around v ++ w)
    (hif : ∀ v w, Derives maxArity (.part .statement) v → Derives maxArity elseClause w →
      Derives maxArity (.part .statement) (around (v ++ w)))
    (hx : Derives maxArity (.sequence [.part .statement, elseClause]) x)
    (hrest : Open (around x) → NoElse rest) :
    ∃ v w, x = v ++ w ∧ Derives maxArity (.part .statement) v ∧ (Open v → NoElse (w ++ rest))
      ∧ ((w = [] ∧ NoElse rest) ∨ ∃ keyword z, w = keyword :: z
        ∧ keyword.kind.sameForm .kwElse = true ∧ Derives maxArity (.part .statement) z
        ∧ (Open z → NoElse rest)) := by
  have hclause (keyword : Token) (z : List Token) (hkeyword : keyword.kind.sameForm .kwElse = true)
      (hz : Derives maxArity (.part .statement) z) : Derives maxArity elseClause (keyword :: z) :=
    derives_optional_iff.mpr (.inl (derives_pair_iff.mpr ⟨[keyword], z, rfl, .token hkeyword, hz⟩))
  -- An `if` without an `else` is open.
  have halone (v : List Token) (hv : Derives maxArity (.part .statement) v) : Open (around v) := by
    intro keyword z hkeyword hz
    rw [← hadd]
    exact hif v (keyword :: z) hv (hclause keyword z hkeyword hz)
  obtain ⟨v, w, rfl, hv, hw⟩ := derives_pair_iff.mp hx
  rcases derives_optional_iff.mp hw with hw | rfl
  · obtain ⟨keyword, z, rfl, hkeyword, hz⟩ := derives_sequence_token_iff.mp hw
    have hz := derives_single_iff.mp hz
    by_cases hopen : Open v
    · have hwhole := hopen keyword z hkeyword hz
      have hend := hrest (halone _ hwhole)
      exact ⟨v ++ keyword :: z, [], by simp, hwhole, fun _ => hend, .inl ⟨rfl, hend⟩⟩
    · refine ⟨v, keyword :: z, rfl, hv, fun h => absurd h hopen,
        .inr ⟨keyword, z, rfl, hkeyword, hz, fun hlast => hrest ?_⟩⟩
      refine hlast.within (fun y => around (v ++ keyword :: y)) (fun y y' => ?_) fun y hy =>
        hif v (keyword :: y) hv (hclause keyword y hkeyword hy)
      rw [← hadd]
      simp
  · rw [List.append_nil] at hrest
    have hend := hrest (halone v hv)
    exact ⟨v, [], rfl, hv, fun _ => hend, .inl ⟨rfl, hend⟩⟩

/-- Where a list of declarations ends: at the end of the source, or in front of a brace. -/
def ListEnds (inBlock : Bool) (rest : List Token) : Prop :=
  (inBlock = true ∧ StartsWith .rightBrace rest) ∨ rest = []

/-- No declaration starts with `else`. -/
theorem noElse_of_declarations {inBlock : Bool}
    (hu : Derives maxArity (.many (.part .declaration)) u) (hrest : ListEnds inBlock rest) :
    NoElse (u ++ rest) := by
  rcases derives_many_iff.mp hu with rfl | ⟨v, w, rfl, hv, -⟩
  · rcases hrest with ⟨-, hbrace⟩ | rfl
    · exact hbrace.ne rfl
    · exact fun _ h => by cases h
  · rw [List.append_assoc]
    exact hv.head_ne rfl (w ++ rest)

mutual

theorem takes_declaration : ∀ (steps : Nat) (u rest : List Token),
    Derives maxArity (.part .declaration) u → NoElse rest → 16 * u.length + 12 ≤ steps →
    Takes (declaration steps) u rest
  | 0, _, _, _, _, hsteps => by omega
  | steps + 1, u, rest, hu, hrest, hsteps => by
    rw [declaration]
    have hcases := derives_part_iff.mp hu
    simp only [Part.rule, derives_oneOf_iff, List.mem_cons, List.not_mem_nil, or_false,
      exists_eq_or_imp, exists_eq_left] at hcases
    rcases hcases with hu | hu | hu | hu
    · obtain ⟨t, v, rfl, ht, -⟩ := derives_sequence_token_iff.mp (derives_part_iff.mp hu)
      rw [List.length_cons] at hsteps
      exact accepts_present ht (takes_classDeclaration steps t v rest hu (by omega))
    · obtain ⟨t, v, rfl, ht, hv⟩ := derives_sequence_token_iff.mp (derives_part_iff.mp hu)
      rw [List.length_cons] at hsteps
      apply accepts_absent (next_ne ht rfl)
      apply accepts_present ht
      exact (takes_function steps .function v rest (derives_single_iff.mp hv) (by omega)).map
    · obtain ⟨t, v, rfl, ht, -⟩ := derives_sequence_token_iff.mp (derives_part_iff.mp hu)
      rw [List.length_cons] at hsteps
      apply accepts_absent (next_ne ht rfl)
      apply accepts_absent (next_ne ht rfl)
      exact accepts_present ht (takes_varDeclaration hu (by omega))
    · apply accepts_absent (hu.head_ne rfl rest)
      apply accepts_absent (hu.head_ne rfl rest)
      apply accepts_absent (hu.head_ne rfl rest)
      exact takes_statement steps u rest hu (fun _ => hrest) (by omega)

theorem takes_classDeclaration : ∀ (steps : Nat) (t : Token) (u rest : List Token),
    Derives maxArity (.part .classDecl) (t :: u) → 16 * u.length + 1 ≤ steps →
    Takes (classDeclaration steps) u rest
  | 0, _, _, _, _, hsteps => by omega
  | steps + 1, t, u, rest, hu, hsteps => by
    obtain ⟨name, v, rfl, hname, hv⟩ := derives_sequence_token_iff.mp (derives_behind rfl hu).2
    obtain ⟨superclass, w, rfl, hsuperclass, hw⟩ := derives_sequence_cons_iff.mp hv
    obtain ⟨opening, x, rfl, hopening, hx⟩ := derives_sequence_token_iff.mp hw
    obtain ⟨functions, y, rfl, hfunctions, hy⟩ := derives_pair_iff.mp hx
    obtain ⟨closing, rfl, hclosing⟩ := derives_token_iff.mp hy
    simp only [List.length_append, List.length_cons] at hsteps
    rw [classDeclaration]
    apply accepts_expectName hname
    intro name
    refine Takes.seq (takes_superclassClause hsuperclass hopening) ?_
    intro superclass
    apply accepts_expect hopening
    refine Takes.seq (takes_methods steps functions _ hfunctions hclosing (by omega)) ?_
    intro _
    exact accepts_expect hclosing (takes_pure _)

theorem takes_methods : ∀ (steps : Nat) (u rest : List Token),
    Derives maxArity (.many (.part .function)) u → StartsWith .rightBrace rest →
    16 * u.length + 2 ≤ steps → Takes (methods steps) u rest
  | 0, _, _, _, _, hsteps => by omega
  | steps + 1, u, rest, hu, hrest, hsteps => by
    rw [methods]
    apply accepts_isNext
    apply accepts_isAtEnd
    rcases derives_many_iff.mp hu with rfl | ⟨v, w, rfl, hv, hw⟩
    · rw [if_pos (by rw [Bool.or_eq_true]; exact .inl hrest)]
      exact takes_pure []
    · obtain ⟨t, x, rfl, hstart⟩ := hv.part_starts
      have hnext : t.kind.sameForm .rightBrace = false := sameForm_eq_false hstart rfl
      simp only [List.length_append, List.length_cons] at hsteps
      rw [if_neg (by simp [hnext])]
      apply Takes.seq (takes_function steps .method _ _ hv (by simp; omega))
      intro method
      exact (takes_methods steps w rest hw hrest (by omega)).map

theorem takes_function : ∀ (steps : Nat) (form : FunctionForm) (u rest : List Token),
    Derives maxArity (.part .function) u → 16 * u.length + 1 ≤ steps →
    Takes (function steps form) u rest
  | 0, _, _, _, _, hsteps => by omega
  | steps + 1, form, u, rest, hu, hsteps => by
    obtain ⟨name, v, rfl, hname, hv⟩ := derives_sequence_token_iff.mp (derives_part_iff.mp hu)
    obtain ⟨opening, w, rfl, hopening, hw⟩ := derives_sequence_token_iff.mp hv
    obtain ⟨params, x, rfl, hparams, hx⟩ := derives_sequence_cons_iff.mp hw
    obtain ⟨closing, y, rfl, hclosing, hy⟩ := derives_sequence_token_iff.mp hx
    have hblock := derives_single_iff.mp hy
    obtain ⟨brace, body, rfl, hbrace, -⟩ :=
      derives_sequence_token_iff.mp (derives_part_iff.mp hblock)
    simp only [List.length_append, List.length_cons] at hsteps
    rw [function]
    apply accepts_expectName hname
    intro name
    apply accepts_expect hopening
    refine Takes.seq (takes_listBefore hparams rfl hclosing fun hparams => ?_) fun params => ?_
    · have hentries := entries_zero_iff.mpr (derives_part_iff.mp hparams)
      exact takes_parameters steps 0 _ _ hentries hclosing (by omega)
    · apply accepts_expect hclosing
      apply accepts_expect hbrace
      exact (takes_block steps brace body rest hblock (by omega)).map

theorem takes_block : ∀ (steps : Nat) (t : Token) (u rest : List Token),
    Derives maxArity (.part .block) (t :: u) → 16 * u.length + 1 ≤ steps →
    Takes (block steps) u rest
  | 0, _, _, _, _, hsteps => by omega
  | steps + 1, t, u, rest, hu, hsteps => by
    obtain ⟨v, w, rfl, hv, hw⟩ := derives_pair_iff.mp (derives_behind rfl hu).2
    obtain ⟨closing, rfl, hclosing⟩ := derives_token_iff.mp hw
    simp only [List.length_append, List.length_cons] at hsteps
    rw [block]
    refine Takes.seq (takes_declarations steps true v _ hv (.inl ⟨rfl, hclosing⟩) (by omega)) ?_
    intro body
    exact accepts_expect hclosing (takes_pure _)

theorem takes_declarations : ∀ (steps : Nat) (inBlock : Bool) (u rest : List Token),
    Derives maxArity (.many (.part .declaration)) u → ListEnds inBlock rest →
    16 * u.length + 13 ≤ steps → Takes (declarations steps inBlock) u rest
  | 0, _, _, _, _, _, hsteps => by omega
  | steps + 1, inBlock, u, rest, hu, hrest, hsteps => by
    rw [declarations]
    apply accepts_isNext
    apply accepts_isAtEnd
    rcases derives_many_iff.mp hu with rfl | ⟨v, w, rfl, hv, hw⟩
    · have hstop : (inBlock && rest.head?.any (fun t => t.kind.sameForm .rightBrace)
          || rest.isEmpty) = true := by
        rcases hrest with ⟨rfl, hbrace⟩ | rfl
        · rw [Bool.or_eq_true]
          exact .inl hbrace
        · simp
      rw [List.nil_append, if_pos hstop]
      exact takes_pure []
    · obtain ⟨t, x, rfl, hstart⟩ := hv.part_starts
      have hnext : t.kind.sameForm .rightBrace = false := sameForm_eq_false hstart rfl
      simp only [List.length_append, List.length_cons] at hsteps
      rw [if_neg (by simp [hnext])]
      apply Takes.seq (takes_recovering (takes_declaration steps _ _ hv (noElse_of_declarations hw
        hrest) (by simp; omega)))
      intro first
      exact (takes_declarations steps inBlock w rest hw hrest (by omega)).map

theorem takes_statement : ∀ (steps : Nat) (u rest : List Token),
    Derives maxArity (.part .statement) u → (Open u → NoElse rest) →
    16 * u.length + 11 ≤ steps → Takes (statement steps) u rest
  | 0, _, _, _, _, hsteps => by omega
  | steps + 1, u, rest, hu, hrest, hsteps => by
    rw [statement]
    obtain ⟨part, hpart, hu⟩ := derives_statement_iff.mp hu
    simp only [statementParts, List.mem_cons, List.not_mem_nil, or_false] at hpart
    rcases hpart with rfl | rfl | rfl | rfl | rfl | rfl | rfl
    · obtain ⟨t, v, rfl, hstart⟩ := hu.part_starts
      apply accepts_peek
      split
      case h_7 => exact takes_expressionStatement hu (by omega)
      all_goals
        rename_i hkind
        rw [hkind] at hstart
        cases hstart
    all_goals
      obtain ⟨t, v, rfl, ht, -⟩ := derives_sequence_token_iff.mp (derives_part_iff.mp hu)
      rw [List.length_cons] at hsteps
      have hkind := TokenKind.eq_of_sameForm ht (by simp [TokenKind.bare])
      apply accepts_peek
      simp only [hkind]
      apply accepts_skip
    · exact takes_forStatement steps t v rest hu hrest (by omega)
    · exact takes_ifStatement steps t v rest hu hrest (by omega)
    · exact takes_printStatement hu (by omega)
    · exact takes_returnStatement hu (by omega)
    · exact takes_whileStatement steps t v rest hu hrest (by omega)
    · exact (takes_block steps t v rest hu (by omega)).map

theorem takes_forStatement : ∀ (steps : Nat) (t : Token) (u rest : List Token),
    Derives maxArity (.part .forStmt) (t :: u) → (Open (t :: u) → NoElse rest) →
    16 * u.length + 1 ≤ steps → Takes (forStatement steps) u rest
  | 0, _, _, _, _, _, hsteps => by omega
  | steps + 1, t, u, rest, hu, hrest, hsteps => by
    obtain ⟨ht, hrule⟩ := derives_behind rfl hu
    obtain ⟨opening, v, rfl, hopening, hv⟩ := derives_sequence_token_iff.mp hrule
    obtain ⟨clause, w, rfl, hclause, hw⟩ := derives_sequence_cons_iff.mp hv
    obtain ⟨condition, x, rfl, hcondition, hx⟩ := derives_sequence_cons_iff.mp hw
    obtain ⟨semicolon, y, rfl, hsemicolon, hy⟩ := derives_sequence_token_iff.mp hx
    obtain ⟨increment, z, rfl, hincrement, hz⟩ := derives_sequence_cons_iff.mp hy
    obtain ⟨closing, body, rfl, hclosing, hbody⟩ := derives_sequence_token_iff.mp hz
    simp only [List.length_append, List.length_cons] at hsteps
    rw [forStatement]
    apply accepts_expect hopening
    apply Takes.seq (takes_forInitializer hclause (by omega))
    intro _
    refine Takes.seq (takes_expressionBefore hcondition rfl rfl hsemicolon (by omega)) ?_
    intro _
    apply accepts_expect hsemicolon
    refine Takes.seq (takes_expressionBefore hincrement rfl rfl hclosing (by omega)) ?_
    intro _
    apply accepts_expect hclosing
    refine (takes_statement steps body rest (derives_single_iff.mp hbody) (fun hopen => hrest ?_)
      (by omega)).map
    refine hopen.within (fun x => t :: opening :: (clause ++ (condition
      ++ semicolon :: (increment ++ closing :: x)))) (by simp) fun x hx => ?_
    have hfor : Derives maxArity (.part .forStmt) (t :: opening :: (clause ++ (condition
        ++ semicolon :: (increment ++ closing :: x)))) :=
      .part (.seq (.token ht) (.seq (.token hopening) (.seq hclause (.seq hcondition
        (.seq (.token hsemicolon) (.seq hincrement (.seq (.token hclosing)
          (derives_single_iff.mpr hx))))))))
    exact hfor.statement (by decide)

theorem takes_ifStatement : ∀ (steps : Nat) (t : Token) (u rest : List Token),
    Derives maxArity (.part .ifStmt) (t :: u) → (Open (t :: u) → NoElse rest) →
    16 * u.length + 1 ≤ steps → Takes (ifStatement steps) u rest
  | 0, _, _, _, _, _, hsteps => by omega
  | steps + 1, t, u, rest, hu, hrest, hsteps => by
    obtain ⟨ht, hrule⟩ := derives_behind rfl hu
    obtain ⟨opening, v, rfl, hopening, hv⟩ := derives_sequence_token_iff.mp hrule
    obtain ⟨condition, w, rfl, hcondition, hw⟩ := derives_sequence_cons_iff.mp hv
    obtain ⟨closing, x, rfl, hclosing, hx⟩ := derives_sequence_token_iff.mp hw
    let around (y : List Token) : List Token := t :: opening :: (condition ++ closing :: y)
    have hif (v w : List Token) (hv : Derives maxArity (.part .statement) v)
        (hw : Derives maxArity elseClause w) :
        Derives maxArity (.part .statement) (around (v ++ w)) := by
      have hstatement : Derives maxArity (.part .ifStmt) (around (v ++ w)) :=
        .part (.seq (.token ht) (.seq (.token hopening) (.seq hcondition (.seq (.token hclosing)
          (derives_pair_iff.mpr ⟨v, w, rfl, hv, hw⟩)))))
      exact hstatement.statement (by decide)
    obtain ⟨v, w, rfl, hv, hnext, hw⟩ := nearest_else around (by simp [around]) hif hx hrest
    simp only [List.length_append, List.length_cons] at hsteps
    rw [ifStatement]
    apply accepts_expect hopening
    apply Takes.seq (takes_expression steps condition _ hcondition (closed_cons hclosing rfl)
      (by omega))
    intro _
    apply accepts_expect hclosing
    apply Takes.seq (takes_statement steps v _ hv hnext (by omega))
    intro thenBranch
    rcases hw with ⟨rfl, hend⟩ | ⟨keyword, z, rfl, hkeyword, hz, hend⟩
    · exact accepts_absent hend (takes_pure _)
    · rw [List.length_cons] at hsteps
      exact accepts_present hkeyword (takes_statement steps z rest hz hend (by omega)).map

theorem takes_whileStatement : ∀ (steps : Nat) (t : Token) (u rest : List Token),
    Derives maxArity (.part .whileStmt) (t :: u) → (Open (t :: u) → NoElse rest) →
    16 * u.length + 1 ≤ steps → Takes (whileStatement steps) u rest
  | 0, _, _, _, _, _, hsteps => by omega
  | steps + 1, t, u, rest, hu, hrest, hsteps => by
    obtain ⟨ht, hrule⟩ := derives_behind rfl hu
    obtain ⟨opening, v, rfl, hopening, hv⟩ := derives_sequence_token_iff.mp hrule
    obtain ⟨condition, w, rfl, hcondition, hw⟩ := derives_sequence_cons_iff.mp hv
    obtain ⟨closing, body, rfl, hclosing, hbody⟩ := derives_sequence_token_iff.mp hw
    simp only [List.length_append, List.length_cons] at hsteps
    rw [whileStatement]
    apply accepts_expect hopening
    apply Takes.seq (takes_expression steps condition _ hcondition (closed_cons hclosing rfl)
      (by omega))
    intro _
    apply accepts_expect hclosing
    refine (takes_statement steps body rest (derives_single_iff.mp hbody) (fun hopen => hrest ?_)
      (by omega)).map
    refine hopen.within (fun x => t :: opening :: (condition ++ closing :: x)) (by simp)
      fun x hx => ?_
    have hwhile : Derives maxArity (.part .whileStmt)
        (t :: opening :: (condition ++ closing :: x)) :=
      .part (.seq (.token ht) (.seq (.token hopening) (.seq hcondition (.seq (.token hclosing)
        (derives_single_iff.mpr hx)))))
    exact hwhile.statement (by decide)

end

theorem takes_wholeExpression {steps : Nat} (hu : Derives maxArity (.part .expression) u)
    (hsteps : 16 * u.length + 10 ≤ steps) : Takes (wholeExpression steps) u [] := by
  apply Accepts.bind_nil (takes_expression steps u [] hu closed_nil hsteps)
  intro value _
  exact accepts_isAtEnd (takes_pure value)

end Parser

/-! ### Whole sources -/

namespace Cursor

variable {c : Cursor}

/-- What a parser accepts up to the end, a run of it reads without an error. -/
theorem run_of_accepts {α : Type} {p : Parser α} {P : α → Prop}
    (h : Parser.Accepts p c.rest [] P) : (c.run p).2.1 = [] ∧ ∃ a, (c.run p).1 = some a ∧ P a := by
  obtain ⟨a, later, hrun, -, herrors, ha⟩ := h { c with errors := [] } (List.append_nil _).symm
  unfold run
  rw [hrun]
  exact ⟨herrors, a, rfl, ha⟩

theorem run_quiet_of_takes {α : Type} {p : Parser α} (h : Parser.Takes p c.rest []) :
    (c.run p).2.1 = [] :=
  (run_of_accepts h).1

/-- The steps that a cursor grants are enough. -/
theorem program_quiet_iff (hc : c.stop.isEnd = true) :
    c.program.2.1 = [] ↔ Derives maxArity (.many (.part .declaration)) c.rest := by
  refine ⟨derives_of_program hc, fun h => run_quiet_of_takes ?_⟩
  exact Parser.takes_declarations c.steps false c.rest [] h (.inr rfl) (by unfold steps; omega)

theorem expression_quiet_iff (hc : c.stop.isEnd = true) :
    c.expression.2.1 = [] ↔ Derives maxArity (.part .expression) c.rest := by
  refine ⟨derives_of_expression hc, fun h => run_quiet_of_takes ?_⟩
  exact Parser.takes_wholeExpression h (by unfold steps; omega)

/-- Where the end of the source comes last and nowhere else, it is not read. -/
theorem start_before_end {body : List Token} {stop : Token} (hbody : ∀ t ∈ body, t.isEnd = false)
    (hstop : stop.isEnd = true) (firstId : Nat) :
    (start (body ++ [stop]) firstId).rest = body
      ∧ (start (body ++ [stop]) firstId).stop = stop := by
  constructor
  · have hall : ∀ t ∈ body, (!t.isEnd) = true := fun t ht => by simp [hbody t ht]
    simp [start, List.takeWhile_append_of_pos hall, hstop]
  · have hnone : body.find? Token.isEnd = none := by simpa using hbody
    simp [start, List.find?_append, hnone, hstop]

end Cursor

theorem Grammar.derives_before_end {limit : Nat} {form : Form} {body : List Token} {stop : Token}
    (hstop : stop.isEnd = true) :
    Derives limit (.sequence [form, .token .eof]) (body ++ [stop]) ↔ Derives limit form body := by
  rw [derives_pair_iff]
  constructor
  · rintro ⟨v, w, hvw, hv, hw⟩
    obtain ⟨t, rfl, -⟩ := derives_token_iff.mp hw
    rwa [(List.append_inj' hvw rfl).1]
  · intro h
    exact ⟨body, [stop], rfl, h, .token hstop⟩

/-- The parser accepts exactly what the grammar derives, when no list of parameters or arguments
is too long: of all sequences of tokens with the end of the source as their last token and nowhere
else, it reads those as programs, and as single expressions, without an error. -/
theorem Cursor.accepts_iff_derives {body : List Token} {stop : Token}
    (hbody : ∀ t ∈ body, t.isEnd = false) (hstop : stop.isEnd = true) (firstId : Nat) :
    ((start (body ++ [stop]) firstId).program.2.1 = []
        ↔ Derives maxArity (.part .program) (body ++ [stop]))
      ∧ ((start (body ++ [stop]) firstId).expression.2.1 = []
        ↔ Derives maxArity (.sequence [.part .expression, .token .eof]) (body ++ [stop])) := by
  obtain ⟨hrest, hend⟩ := start_before_end hbody hstop firstId
  have hc : (start (body ++ [stop]) firstId).stop.isEnd = true := by rw [hend]; exact hstop
  constructor
  · rw [program_quiet_iff hc, hrest, derives_part_iff]
    exact (derives_before_end hstop).symm
  · rw [expression_quiet_iff hc, hrest, derives_before_end hstop]

/-- A property can be assigned, a name in parentheses cannot. -/
theorem Cursor.accepts_iff_derives_targets :
    let stop : Token := ⟨.eof, "", 1⟩
    let value : List Token := [⟨.equal, "=", 1⟩, ⟨.identifier, "c", 1⟩, ⟨.semicolon, ";", 1⟩]
    let property : List Token := [⟨.identifier, "a", 1⟩, ⟨.dot, ".", 1⟩, ⟨.identifier, "b", 1⟩]
    let grouped : List Token :=
      [⟨.leftParen, "(", 1⟩, ⟨.identifier, "a", 1⟩, ⟨.rightParen, ")", 1⟩]
    Derives maxArity (.part .program) (property ++ value ++ [stop])
      ∧ ¬ Derives maxArity (.part .program) (grouped ++ value ++ [stop]) := by
  intro stop value property grouped
  refine ⟨(accepts_iff_derives (by decide) rfl 0).1.mp (by decide +kernel), fun h => ?_⟩
  have hquiet := (accepts_iff_derives (by decide) rfl 0).1.mpr h
  have hnoted : (start (grouped ++ value ++ [stop]) 0).program.2.1.length = 1 := by decide +kernel
  rw [hquiet] at hnoted
  cases hnoted

end Treewalk
