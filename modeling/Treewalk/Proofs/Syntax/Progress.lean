import Treewalk.Proofs.Syntax.Budget
import Treewalk.Proofs.Syntax.Continuation

/-!
# Parsing gets on, stays inside its tokens, and ends

**Whatever the tokens are, as long as the last of them and no other ends the source, every rule of
the grammar ends in front of one of them, and not in front of one that was passed before.**  A
declaration that is called in front of any other token than the last leaves at least one token
behind, even when it breaks; so the declarations of a source end, and they end at its end.

A cursor holds the tokens that are left.  Here its place is read as an index into all of them, so
that staying inside becomes a statement about indices: the next token is the one with the index of
the place, and the token read before it has the index one less.
-/

namespace Treewalk

/-! ### Places -/

/-- The cursor stands in front of the token with this index. -/
def Cursor.Stands (tokens : List Token) (index : Nat) (c : Cursor) : Prop :=
  tokens.drop index = c.rest ++ [c.stop]

namespace Cursor.Stands

variable {tokens : List Token} {i : Nat} {c later : Cursor}

theorem length_eq (h : c.Stands tokens i) : tokens.length = i + c.rest.length + 1 := by
  have hlength := congrArg List.length h
  simp only [List.length_drop, List.length_append, List.length_singleton] at hlength
  omega

/-- The next token is the one in front of which the cursor stands. -/
theorem getElem? (h : c.Stands tokens i) : tokens[i]? = some c.next := by
  have hhead : (tokens.drop i).head? = some c.next := by
    rw [h]
    unfold Cursor.next
    cases c.rest <;> rfl
  rw [← hhead, List.head?_drop]

/-- Moving forward adds to the index what is taken from the tokens that are left. -/
theorem onward (h : c.Stands tokens i) (hon : c.Onward later) :
    later.Stands tokens (i + (c.rest.length - later.rest.length)) := by
  obtain ⟨read, hread⟩ := hon.rest
  have hlength : c.rest.length - later.rest.length = read.length := by
    rw [← hread, List.length_append]
    omega
  show tokens.drop _ = later.rest ++ [later.stop]
  rw [hlength, ← List.drop_drop, h, hon.stop, ← hread, List.append_assoc, List.drop_left]

end Cursor.Stands

/-- A parser starts in front of the first of tokens of which only the last ends the source. -/
theorem Cursor.start_concat {inner : List Token} {stop : Token} (firstId : Nat)
    (hinner : ∀ t ∈ inner, t.isEnd = false) (hstop : stop.isEnd = true) :
    Cursor.start (inner ++ [stop]) firstId = ⟨inner, stop, firstId, []⟩ := by
  have hrest : (inner ++ [stop]).takeWhile (fun t => !t.isEnd) = inner := by
    rw [List.takeWhile_append_of_pos fun t ht => by simp [hinner t ht]]
    simp [hstop]
  have hfind : (inner ++ [stop]).find? Token.isEnd = some stop := by
    rw [List.find?_append, List.find?_eq_none.mpr fun t ht => by simp [hinner t ht]]
    simp [hstop]
  unfold Cursor.start
  rw [hrest, hfind]
  rfl

namespace Parser

/-- The cursor that a parser leaves, whether it succeeds or stops. -/
def leaves {α : Type} (p : Parser α) (c : Cursor) : Cursor :=
  match p c with
  | .ok _ later => later
  | .error _ later => later

/-- The parser stops because its steps have run out, or such an error was noted on the way. -/
def RunsOut {α : Type} (p : Parser α) (c : Cursor) : Prop :=
  (∃ e later, p c = .error e later ∧ e.fault = .outOfSteps)
    ∨ ∃ e ∈ (leaves p c).errors, e.fault = .outOfSteps

theorem Gives.onward {α : Type} {p : Parser α} {c : Cursor} {Q : α → Cursor → Prop}
    (h : Gives p c Q) : c.Onward (leaves p c) := by
  unfold Gives at h
  unfold leaves
  rcases hpc : p c with ⟨a, later⟩ | ⟨e, later⟩
  · rw [hpc] at h
    exact h.1
  · rw [hpc] at h
    exact h

/-- The token that is read was the next one. -/
theorem rest_of_accept {kind : TokenKind} {c later : Cursor} {t : Token}
    (h : accept kind c = .ok (some t) later) :
    ∃ rest, c.rest = t :: rest ∧ later = { c with rest } := by
  unfold accept at h
  rcases hrest : c.rest with _ | ⟨t', rest⟩
  · rw [hrest] at h
    cases h
  · rw [hrest] at h
    by_cases hkind : t'.kind.sameForm kind
    · simp only [if_pos hkind] at h
      cases h
      exact ⟨rest, rfl, rfl⟩
    · simp only [if_neg hkind] at h
      cases h

theorem Settles.not_runsOut {α : Type} {p p' : Parser α} {c : Cursor} {Q : α → Cursor → Prop}
    (h : Settles p p' c Q) (hc : c.Unspent) : ¬ RunsOut p c := by
  have hrun := (h hc).2
  rintro (⟨e, later, he, hfault⟩ | ⟨e, he, hfault⟩)
  · rw [he] at hrun
    exact hrun.2.2 hfault
  · unfold leaves at he
    rcases hpc : p c with ⟨a, later⟩ | ⟨e', later⟩
    · rw [hpc] at hrun he
      exact hrun.2.1.errors e he hfault
    · rw [hpc] at hrun he
      exact hrun.2.1.errors e he hfault

/-! ### The rules -/

/-- The rules of the grammar with what they go on from, and the ways in which a single token is
    read. -/
inductive Rule where
  | skip
  | accept (kind : TokenKind)
  | acceptJoin (level : Level)
  | expression
  | joined (levels : List Level) (hlevels : levels <:+ Level.all)
  | joinedFrom (level : Level) (tighter : List Level) (hlevels : level :: tighter <:+ Level.all)
      (left : Expr)
  | unary
  | calls (left : Expr)
  | arguments (count : Nat)
  | primary
  | parameters (count : Nat)
  | expressionBefore (kind : TokenKind)
  | initializer
  | varDeclaration
  | expressionStatement
  | printStatement
  | returnStatement (line : Nat)
  | forInitializer
  | superclassClause
  | declaration
  | recoveringDeclaration
  | classDeclaration
  | methods
  | function (form : FunctionForm)
  | block
  | declarations (inBlock : Bool)
  | statement
  | forStatement
  | ifStatement
  | whileStatement
  | wholeExpression

namespace Rule

/-- What a rule returns. -/
def Result : Rule → Type
  | skip => PUnit
  | accept _ => Option Token
  | acceptJoin _ => Option (Expr → Expr → Expr)
  | expression | joined .. | joinedFrom .. | unary | calls _ | primary | wholeExpression => Expr
  | arguments _ => List Expr
  | parameters _ => List Name
  | expressionBefore _ | initializer => Option Expr
  | forInitializer | recoveringDeclaration => Option Stmt
  | superclassClause => Option Reference
  | varDeclaration | expressionStatement | printStatement | returnStatement _ | declaration
  | classDeclaration | statement | forStatement | ifStatement | whileStatement => Stmt
  | methods => List FunctionDecl
  | function _ => FunctionDecl
  | block | declarations _ => List Stmt

/-- The parser of a rule. -/
def parser (steps : Nat) : (rule : Rule) → Parser rule.Result
  | skip => Parser.skip
  | accept kind => Parser.accept kind
  | acceptJoin level => Parser.acceptJoin level
  | expression => Parser.expression steps
  | joined levels _ => Parser.joined steps levels
  | joinedFrom level tighter _ left => Parser.joinedFrom steps level tighter left
  | unary => Parser.unary steps
  | calls left => Parser.calls steps left
  | arguments count => Parser.arguments steps count
  | primary => Parser.primary steps
  | parameters count => Parser.parameters steps count
  | expressionBefore kind => Parser.expressionBefore steps kind
  | initializer => Parser.initializer steps
  | varDeclaration => Parser.varDeclaration steps
  | expressionStatement => Parser.expressionStatement steps
  | printStatement => Parser.printStatement steps
  | returnStatement line => Parser.returnStatement steps line
  | forInitializer => Parser.forInitializer steps
  | superclassClause => Parser.superclassClause
  | declaration => Parser.declaration steps
  | recoveringDeclaration => recovering (Parser.declaration steps)
  | classDeclaration => Parser.classDeclaration steps
  | methods => Parser.methods steps
  | function form => Parser.function steps form
  | block => Parser.block steps
  | declarations inBlock => Parser.declarations steps inBlock
  | statement => Parser.statement steps
  | forStatement => Parser.forStatement steps
  | ifStatement => Parser.ifStatement steps
  | whileStatement => Parser.whileStatement steps
  | wholeExpression => Parser.wholeExpression steps

/-- Every rule only ever moves forward, with whatever steps. -/
theorem advances (rule : Rule) (steps : Nat) : Advances (rule.parser steps) := by
  have hle := Nat.le_refl steps
  -- Each rule does what it does inside a longer source; here nothing is added to it.
  let ι : Embedding := ⟨id, 0, []⟩
  have hdeclaration := whole_declaration (ι := ι) steps steps hle
  cases rule with
  | skip => exact fun c => gives_skip.imp fun _ _ _ _ => trivial
  | accept kind => exact fun c => (gives_accept kind).imp fun _ _ _ _ => trivial
  | acceptJoin level => exact fun c => (gives_acceptJoin level).imp fun _ _ _ _ => trivial
  | expression => exact advances_expression steps
  | joined levels _ => exact (mirrors_joined (ι := ι) steps steps hle levels).advances
  | joinedFrom level tighter _ left =>
    exact (mirrors_joinedFrom (ι := ι) steps steps hle level tighter left).advances
  | unary => exact (mirrors_unary (ι := ι) steps steps hle).advances
  | calls left => exact (mirrors_calls (ι := ι) steps steps hle left).advances
  | arguments count => exact (mirrors_arguments (ι := ι) steps steps hle count).advances
  | primary => exact (mirrors_primary (ι := ι) steps steps hle).advances
  | parameters count => exact (mirrors_parameters (ι := ι) steps steps hle count).advances
  | expressionBefore kind => exact advances_expressionBefore steps kind
  | initializer => exact (mirrors_initializer (ι := ι) hle).advances
  | varDeclaration => exact (reads_varDeclaration steps).advances
  | expressionStatement => exact (reads_expressionStatement steps).advances
  | printStatement => exact (reads_printStatement steps).advances
  | returnStatement line => exact (reads_returnStatement steps line).advances
  | forInitializer => exact (mirrors_forInitializer (ι := ι) hle).advances
  | superclassClause => exact (mirrors_superclassClause (ι := ι)).advances
  | declaration => exact hdeclaration.advances
  | recoveringDeclaration => exact (mirrors_recovering hdeclaration.mirrors).advances
  | classDeclaration => exact (whole_classDeclaration (ι := ι) steps steps hle).advances
  | methods => exact (mirrors_methods (ι := ι) steps steps hle).advances
  | function form => exact (whole_function (ι := ι) steps steps hle form).advances
  | block => exact (whole_block (ι := ι) steps steps hle).advances
  | declarations inBlock => exact (mirrors_declarations (ι := ι) steps steps hle inBlock).advances
  | statement => exact (whole_statement (ι := ι) steps steps hle).advances
  | forStatement => exact (whole_forStatement (ι := ι) steps steps hle).advances
  | ifStatement => exact (whole_ifStatement (ι := ι) steps steps hle).advances
  | whileStatement => exact (whole_whileStatement (ι := ι) steps steps hle).advances
  | wholeExpression =>
    refine fun c => (advances_expression steps c).bind fun value _ _ _ =>
      gives_isAtEnd.bind fun atEnd _ _ _ => ?_
    split
    · exact gives_pure trivial
    · exact gives_fail _

/-- Every rule settles with the steps that its cursor grants. -/
theorem settles (rule : Rule) {steps steps' : Nat} {c : Cursor}
    (h : c.steps ≤ min steps steps') :
    Settles (rule.parser steps) (rule.parser steps') c fun _ _ => True := by
  unfold Cursor.steps at h
  have hdeclaration := settles_declaration steps steps' c (by omega)
  cases rule with
  | skip => exact settles_skip.imp fun _ _ _ _ => trivial
  | accept kind => exact (settles_accept kind).imp fun _ _ _ _ => trivial
  | acceptJoin level => exact (settles_acceptJoin level).imp fun _ _ _ _ => trivial
  | expression => exact (settles_expression steps steps' c (by omega)).settles
  | joined levels hlevels =>
    have hle : levels.length ≤ 6 := hlevels.length_le
    exact (settles_joined steps steps' levels c (by omega)).settles
  | joinedFrom level tighter hlevels left =>
    have hle : tighter.length + 1 ≤ 6 := hlevels.length_le
    exact settles_joinedFrom steps steps' level tighter left c (by omega)
  | unary => exact (settles_unary steps steps' c (by omega)).settles
  | calls left => exact settles_calls steps steps' left c (by omega)
  | arguments count => exact (settles_arguments steps steps' count c (by omega)).settles
  | primary => exact (settles_primary steps steps' c (by omega)).settles
  | parameters count => exact settles_parameters steps steps' count c (by omega)
  | expressionBefore kind => exact settles_expressionBefore kind (by omega)
  | initializer => exact settles_initializer (by omega)
  | varDeclaration => exact (settles_varDeclaration (by omega)).settles
  | expressionStatement => exact (settles_expressionStatement (by omega)).settles
  | printStatement => exact (settles_printStatement (by omega)).settles
  | returnStatement line => exact (settles_returnStatement line (by omega)).settles
  | forInitializer => exact settles_forInitializer (by omega)
  | superclassClause => exact settles_superclassClause
  | declaration => exact hdeclaration.settles
  | recoveringDeclaration => exact (settles_recovering hdeclaration).imp fun _ _ _ _ => trivial
  | classDeclaration => exact (settles_classDeclaration steps steps' c (by omega)).settles
  | methods => exact settles_methods steps steps' c (by omega)
  | function form => exact (settles_function steps steps' form c (by omega)).settles
  | block => exact (settles_block steps steps' c (by omega)).settles
  | declarations inBlock =>
    exact (settles_declarations steps steps' inBlock c (by omega)).imp fun _ _ _ _ => trivial
  | statement => exact (settles_statement steps steps' c (by omega)).settles
  | forStatement => exact (settles_forStatement steps steps' c (by omega)).settles
  | ifStatement => exact (settles_ifStatement steps steps' c (by omega)).settles
  | whileStatement => exact (settles_whileStatement steps steps' c (by omega)).settles
  | wholeExpression => exact (settles_wholeExpression (by omega)).settles

end Rule

/-! ### Getting on -/

/-- Recovery itself never stops. -/
theorem recovering_ok {α : Type} (p : Parser α) (c : Cursor) :
    ∃ a? later, recovering p c = .ok a? later := by
  unfold recovering
  cases p c with
  | ok a later => exact ⟨some a, later, rfl⟩
  | error e later => exact ⟨none, _, rfl⟩

/-- Whether a declaration succeeds or breaks, a token is left behind if there is one. -/
theorem leaves_recovering_declaration (steps : Nat) {c : Cursor} (hrest : c.rest ≠ []) :
    c.Onward (leaves (recovering (declaration steps)) c)
      ∧ (leaves (recovering (declaration steps)) c).rest.length < c.rest.length := by
  have hreads := length_recovering hrest
    ((whole_declaration (ι := ⟨id, 0, []⟩) steps steps (Nat.le_refl _)).reads c)
  obtain ⟨first, later, hfirst⟩ := recovering_ok (declaration steps) c
  unfold Gives at hreads
  unfold leaves
  rw [hfirst] at hreads ⊢
  exact hreads

/-- Declarations break one by one, but together they only stop when the steps have run out. -/
theorem outOfSteps_of_declarations {e : SyntaxError} {inBlock : Bool} {later : Cursor} :
    ∀ (steps : Nat) {c : Cursor}, declarations steps inBlock c = .error e later →
      e.fault = .outOfSteps
  | 0, _, h => by
    cases h
    rfl
  | steps + 1, c, h => by
    have hnext : isNext .rightBrace c = .ok _ c := rfl
    have hatEnd : isAtEnd c = .ok _ c := rfl
    rw [declarations, bind_of_ok hnext, bind_of_ok hatEnd] at h
    split at h
    · cases h
    · obtain ⟨first, middle, hfirst⟩ := recovering_ok (declaration steps) c
      rw [bind_of_ok hfirst] at h
      rcases hothers : declarations steps inBlock middle with ⟨others, last⟩ | ⟨e', last⟩
      · rw [bind_of_ok hothers] at h
        cases h
      · rw [bind_of_error hothers] at h
        cases h
        exact outOfSteps_of_declarations steps hothers

/-- A cursor's own steps are enough for the declarations of a source. -/
theorem settles_program (c : Cursor) :
    Settles (declarations c.steps false) (declarations c.steps false) c fun _ later =>
      later.rest = [] := by
  have h : 16 * c.rest.length + 13 ≤ min c.steps c.steps := by
    unfold Cursor.steps
    omega
  exact (settles_declarations c.steps c.steps false c h).imp fun _ _ _ hlast => hlast rfl

end Parser

/-- A program is read to the end of its tokens. -/
theorem Cursor.program_ends {c : Cursor} (hstop : c.stop.isEnd = true) :
    c.program.2.2.rest = [] ∧ c.program.2.2.stop = c.stop := by
  have hrun := (Parser.settles_program { c with errors := [] } ⟨hstop, fun _ h => nomatch h⟩).2
  unfold Cursor.program Cursor.run
  rcases hprogram : Parser.declarations c.steps false { c with errors := [] } with
    ⟨p, later⟩ | ⟨e, later⟩
  · have hprogram' : Parser.declarations (Cursor.steps { c with errors := [] }) false
        { c with errors := [] } = .ok p later := hprogram
    rw [hprogram'] at hrun
    exact ⟨hrun.2.2, hrun.1.stop⟩
  · have hprogram' : Parser.declarations (Cursor.steps { c with errors := [] }) false
        { c with errors := [] } = .error e later := hprogram
    rw [hprogram'] at hrun
    exact absurd (Parser.outOfSteps_of_declarations _ hprogram) hrun.2.2

/-- What a run reports does not include that the steps have run out. -/
theorem Cursor.run_unspent {α : Type} {p p' : Parser α} {c : Cursor} {Q : α → Cursor → Prop}
    (hstop : c.stop.isEnd = true) (h : Parser.Settles p p' { c with errors := [] } Q) :
    ∀ e ∈ (c.run p).2.1, e.fault ≠ .outOfSteps := by
  have hrun := (h ⟨hstop, fun _ h => nomatch h⟩).2
  unfold Cursor.run
  rcases hp : p { c with errors := [] } with ⟨a, later⟩ | ⟨e, later⟩
  · rw [hp] at hrun
    exact hrun.2.1.errors
  · rw [hp] at hrun
    intro e' he'
    rcases List.mem_append.mp he' with he' | he'
    · exact hrun.2.1.errors e' he'
    · rw [List.mem_singleton.mp he']
      exact hrun.2.2

/-! ### Every source -/

/-- Of tokens of which the last and no other ends the source, a program or an expression is parsed
    within the budget, and every rule is, wherever it starts.  No rule leaves the tokens or goes
    back in them.  A declaration called in front of any other token than the last leaves a token
    behind, and a program ends in front of the last. -/
theorem parsing_gets_on (inner : List Token) (stop : Token) (firstId : Nat)
    (hinner : ∀ t ∈ inner, t.isEnd = false) (hstop : stop.isEnd = true) :
    let slice := inner ++ [stop]
    let start := Cursor.start slice firstId
    -- Parsing ends, and with more steps it ends alike.
    (∀ e ∈ start.program.2.1, e.fault ≠ .outOfSteps)
      ∧ (∀ e ∈ start.expression.2.1, e.fault ≠ .outOfSteps)
      ∧ (∀ (rule : Parser.Rule) (c : Cursor) (i steps : Nat), c.Stands slice i → c.Unspent →
          c.steps ≤ steps → rule.parser steps c = rule.parser c.steps c
            ∧ ¬ Parser.RunsOut (rule.parser steps) c)
    -- A place is the index of the next token, and one less that of the token read before.
      ∧ start.Stands slice 0
      ∧ (∀ (c : Cursor) (i : Nat), c.Stands slice i → i ≤ inner.length
          ∧ slice[i]? = some c.next ∧ (slice[i - 1]?).isSome ∧ (c.rest = [] ↔ i = inner.length))
      ∧ (∀ (kind : TokenKind) (c later : Cursor) (i : Nat) (t : Token), c.Stands slice i →
          Parser.accept kind c = .ok (some t) later →
          later.Stands slice (i + 1) ∧ slice[i]? = some t)
    -- Every rule, with whatever steps, ends at a place that is not before the one it started from.
      ∧ (∀ (rule : Parser.Rule) (steps : Nat) (c : Cursor) (i : Nat), c.Stands slice i →
          ∃ j, (Parser.leaves (rule.parser steps) c).Stands slice j ∧ i ≤ j)
      ∧ (∀ (steps : Nat) (c : Cursor) (i : Nat), c.Stands slice i → i < inner.length →
          ∃ j, (Parser.leaves (Parser.recovering (Parser.declaration steps)) c).Stands slice j
            ∧ i < j)
      ∧ start.program.2.2.Stands slice inner.length := by
  intro slice start
  have hstart : start = ⟨inner, stop, firstId, []⟩ := Cursor.start_concat firstId hinner hstop
  have hends : start.stop.isEnd = true := by
    rw [hstart]
    exact hstop
  have hplace : ∀ (c : Cursor) (i : Nat), c.Stands slice i → inner.length = i + c.rest.length := by
    intro c i hc
    have hlength := hc.length_eq
    simp only [slice, List.length_append, List.length_singleton] at hlength
    omega
  have hfirst : start.Stands slice 0 := by
    rw [hstart]
    exact List.drop_zero
  refine ⟨?_, ?_, ?_, hfirst, ?_, ?_, ?_, ?_, ?_⟩
  · exact Cursor.run_unspent hends (Parser.settles_program _)
  · have hsteps : start.steps ≤ min start.steps start.steps :=
      Nat.le_min.mpr ⟨Nat.le_refl _, Nat.le_refl _⟩
    exact Cursor.run_unspent hends (Parser.Rule.wholeExpression.settles hsteps)
  · intro rule c i steps _ hunspent hsteps
    have hsettles := rule.settles (Nat.le_min.mpr ⟨Nat.le_refl c.steps, hsteps⟩)
    refine ⟨(hsettles hunspent).1, ?_⟩
    exact (rule.settles (Nat.le_min.mpr ⟨hsteps, hsteps⟩)).not_runsOut hunspent
  · intro c i hc
    have hlength := hplace c i hc
    refine ⟨by omega, hc.getElem?, ?_, ?_⟩
    · have hlt : i - 1 < slice.length := by
        rw [hc.length_eq]
        omega
      rw [List.getElem?_eq_getElem hlt]
      rfl
    · rw [← List.length_eq_zero_iff]
      omega
  · intro kind c later i t hc haccept
    obtain ⟨rest, hrest, hlater⟩ := Parser.rest_of_accept haccept
    refine ⟨?_, ?_⟩
    · have hon := hc.onward (Parser.onward_cons hrest)
      rw [hrest, List.length_cons, Nat.add_sub_cancel_left] at hon
      rw [hlater]
      exact hon
    · rw [hc.getElem?]
      unfold Cursor.next
      rw [hrest]
      rfl
  · intro rule steps c i hc
    exact ⟨_, hc.onward (rule.advances steps c).onward, Nat.le_add_right _ _⟩
  · intro steps c i hc hi
    have hlength := hplace c i hc
    have hrest : c.rest ≠ [] := by
      rw [← List.length_pos_iff]
      omega
    obtain ⟨hon, hreads⟩ := Parser.leaves_recovering_declaration steps hrest
    exact ⟨_, hc.onward hon, by omega⟩
  · obtain ⟨hrest, hlast⟩ := Cursor.program_ends hends
    show slice.drop inner.length = _
    rw [hrest, hlast, hstart]
    simp [slice]

/-- The tokens of `print 1 var`, without the end of the source. -/
def unfinished : List Token :=
  [⟨.kwPrint, "print", 1⟩, ⟨.number 1, "1", 1⟩, ⟨.kwVar, "var", 1⟩]

theorem parsing_gets_on_unfinished :
    let start := Cursor.start (unfinished ++ [⟨.eof, "", 1⟩]) 0
    (∀ t ∈ unfinished, t.isEnd = false) ∧ (⟨.eof, "", 1⟩ : Token).isEnd = true
      ∧ start.program.2.2.Stands (unfinished ++ [⟨.eof, "", 1⟩]) unfinished.length := by
  have hinner : ∀ t ∈ unfinished, t.isEnd = false := by decide
  have hstop : (⟨.eof, "", 1⟩ : Token).isEnd = true := by decide
  obtain ⟨-, -, -, -, -, -, -, -, hends⟩ := parsing_gets_on unfinished ⟨.eof, "", 1⟩ 0 hinner hstop
  exact ⟨hinner, hstop, hends⟩

end Treewalk
