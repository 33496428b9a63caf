import Mathlib.Data.List.Nodup
import Treewalk.Syntax.Error
import Treewalk.Token

/-!
# The grammar

**The grammar is a table.**  It gives every part of the language a form, put together from tokens
and other parts.  Which sequences of tokens a form derives is an inductive relation, so a part may
stand inside itself to any depth.  Lists of parameters and arguments have a form of their own,
because a derivation is only counted if its lists are not too long.

The kinds of tokens a part can start with are listed in a second table, which is checked against
the first.  Every part needs a token.
-/

namespace Treewalk

/-! ### Kinds of tokens -/

namespace TokenKind

theorem sameForm_symm {a b : TokenKind} (h : a.sameForm b = true) : b.sameForm a = true := by
  simp only [sameForm, beq_iff_eq] at h ⊢
  exact h.symm

theorem sameForm_trans {a b c : TokenKind} (hab : a.sameForm b = true) (hbc : b.sameForm c = true) :
    a.sameForm c = true := by
  simp only [sameForm, beq_iff_eq] at hab hbc ⊢
  exact hab.trans hbc

/-- A kind without a constant is the only one of its form. -/
theorem eq_of_sameForm {kind other : TokenKind} (h : kind.sameForm other = true)
    (hother : other ∈ bare) : kind = other := by
  have hindex : kind.ctorIdx = other.ctorIdx := by simpa [sameForm] using h
  have hconstant : ∀ k ∈ bare,
      k.ctorIdx ≠ (string "").ctorIdx ∧ k.ctorIdx ≠ (number 0).ctorIdx := by decide
  have hdistinct : (bare.map TokenKind.ctorIdx).Nodup := by decide
  have hkind : kind ∈ bare := by
    obtain ⟨hstring, hnumber⟩ := hconstant other hother
    rw [← hindex] at hstring hnumber
    cases kind <;> first
      | exact absurd rfl hstring
      | exact absurd rfl hnumber
      | simp [bare]
  exact List.inj_on_of_nodup_map hdistinct hkind hother hindex

end TokenKind

namespace Grammar

/-! ### Forms -/

/-- The parts of the language that have a rule. -/
inductive Part where
  | program
  | declaration
  | classDecl
  | funDecl
  | function
  | varDecl
  | statement
  | exprStmt
  | forStmt
  | ifStmt
  | printStmt
  | returnStmt
  | whileStmt
  | block
  | parameters
  | arguments
  | expression
  | assignment
  | logicOr
  | logicAnd
  | equality
  | comparison
  | term
  | factor
  | unary
  | call
  | primary
deriving DecidableEq, Repr

/-- What a rule may ask for. -/
inductive Form where
  /-- A token of the form of `kind`. -/
  | token (kind : TokenKind)
  | part (part : Part)
  | empty
  | seq (first second : Form)
  | never
  | either (left right : Form)
  /-- The form a number of times. -/
  | times (count : Nat) (form : Form)
  /-- The form any number of times. -/
  | many (form : Form)
  /-- One or more entries with commas between them. -/
  | list (entry : Form)

namespace Form

instance : Coe TokenKind Form := ⟨.token⟩

instance : Coe Part Form := ⟨.part⟩

/-- All of the forms, one after another. -/
def sequence (forms : List Form) : Form :=
  forms.foldr seq empty

/-- One of the forms. -/
def oneOf (forms : List Form) : Form :=
  forms.foldr either never

/-- The form or nothing. -/
def optional (form : Form) : Form :=
  oneOf [form, empty]

/-- Operands with operators between them. -/
def chain (operand operator : Form) : Form :=
  sequence [operand, many (sequence [operator, operand])]

end Form

section

open TokenKind Grammar.Part Grammar.Form

/-- What stands before the sign of an assignment: a name, or a property of anything that can be
    called. -/
def target : Form :=
  sequence [optional (sequence [call, dot]), identifier]

/-- What may follow the callee or object. -/
def suffix : Form :=
  oneOf [sequence [leftParen, optional arguments, rightParen], sequence [dot, identifier]]

/-- The rules.  A number or string stands for all of its form. -/
def Part.rule : Part → Form
  | program => sequence [many declaration, eof]
  | declaration => oneOf [classDecl, funDecl, varDecl, statement]
  | classDecl => sequence [kwClass, identifier, optional (sequence [less, identifier]), leftBrace,
      many function, rightBrace]
  | funDecl => sequence [kwFun, function]
  | function => sequence [identifier, leftParen, optional parameters, rightParen, block]
  | varDecl => sequence [kwVar, identifier, optional (sequence [equal, expression]), semicolon]
  | statement => oneOf [exprStmt, forStmt, ifStmt, printStmt, returnStmt, whileStmt, block]
  | exprStmt => sequence [expression, semicolon]
  | forStmt => sequence [kwFor, leftParen, oneOf [varDecl, exprStmt, semicolon],
      optional expression, semicolon, optional expression, rightParen, statement]
  | ifStmt => sequence [kwIf, leftParen, expression, rightParen, statement,
      optional (sequence [kwElse, statement])]
  | printStmt => sequence [kwPrint, expression, semicolon]
  | returnStmt => sequence [kwReturn, optional expression, semicolon]
  | whileStmt => sequence [kwWhile, leftParen, expression, rightParen, statement]
  | block => sequence [leftBrace, many declaration, rightBrace]
  | parameters => list identifier
  | arguments => list expression
  | expression => assignment
  | assignment => oneOf [sequence [target, equal, assignment], logicOr]
  | logicOr => chain logicAnd kwOr
  | logicAnd => chain equality kwAnd
  | equality => chain comparison (oneOf [bangEqual, equalEqual])
  | comparison => chain term (oneOf [greater, greaterEqual, less, lessEqual])
  | term => chain factor (oneOf [minus, plus])
  | factor => chain unary (oneOf [slash, star])
  | unary => oneOf [sequence [oneOf [bang, minus], unary], call]
  | call => sequence [primary, many suffix]
  | primary => oneOf [number 0, string "", kwTrue, kwFalse, kwNil, kwThis, identifier,
      sequence [leftParen, expression, rightParen], sequence [kwSuper, dot, identifier]]

end

/-- The form derives the tokens, and in the derivation no list has more than `limit` entries. -/
inductive Derives (limit : Nat) : Form → List Token → Prop where
  | token {kind : TokenKind} {t : Token} (h : t.kind.sameForm kind = true) :
      Derives limit (.token kind) [t]
  | part {part : Part} {u : List Token} (h : Derives limit part.rule u) :
      Derives limit (.part part) u
  | empty : Derives limit .empty []
  | seq {first second : Form} {u v : List Token} (hfirst : Derives limit first u)
      (hsecond : Derives limit second v) : Derives limit (.seq first second) (u ++ v)
  | left {left right : Form} {u : List Token} (h : Derives limit left u) :
      Derives limit (.either left right) u
  | right {left right : Form} {u : List Token} (h : Derives limit right u) :
      Derives limit (.either left right) u
  | none {form : Form} : Derives limit (.times 0 form) []
  | more {form : Form} {count : Nat} {u v : List Token} (hfirst : Derives limit form u)
      (hothers : Derives limit (.times count form) v) :
      Derives limit (.times (count + 1) form) (u ++ v)
  | many {form : Form} (count : Nat) {u : List Token} (h : Derives limit (.times count form) u) :
      Derives limit (.many form) u
  | list {entry : Form} {others : Nat} {u v : List Token} (hlimit : others + 1 ≤ limit)
      (hfirst : Derives limit entry u)
      (hothers : Derives limit (.times others (Form.sequence [.token .comma, entry])) v) :
      Derives limit (.list entry) (u ++ v)

variable {limit : Nat} {kind : TokenKind} {part : Part} {form first second left right : Form}
variable {u v : List Token}

/-! ### What a form derives -/

theorem derives_token_iff :
    Derives limit (.token kind) u ↔ ∃ t, u = [t] ∧ t.kind.sameForm kind = true := by
  constructor
  · intro h
    cases h with
    | token h => exact ⟨_, rfl, h⟩
  · rintro ⟨t, rfl, h⟩
    exact .token h

theorem derives_part_iff : Derives limit (.part part) u ↔ Derives limit part.rule u := by
  constructor
  · intro h
    cases h with
    | part h => exact h
  · exact .part

theorem derives_empty_iff : Derives limit .empty u ↔ u = [] := by
  constructor
  · intro h
    cases h
    rfl
  · rintro rfl
    exact .empty

theorem derives_seq_iff : Derives limit (.seq first second) u ↔
    ∃ v w, u = v ++ w ∧ Derives limit first v ∧ Derives limit second w := by
  constructor
  · intro h
    cases h with
    | seq hfirst hsecond => exact ⟨_, _, rfl, hfirst, hsecond⟩
  · rintro ⟨v, w, rfl, hfirst, hsecond⟩
    exact .seq hfirst hsecond

theorem derives_never_iff : Derives limit .never u ↔ False := by
  constructor
  · intro h
    cases h
  · exact False.elim

theorem derives_either_iff : Derives limit (.either left right) u ↔
    Derives limit left u ∨ Derives limit right u := by
  constructor
  · intro h
    cases h with
    | left h => exact .inl h
    | right h => exact .inr h
  · rintro (h | h)
    · exact .left h
    · exact .right h

theorem derives_sequence_nil_iff : Derives limit (.sequence []) u ↔ u = [] :=
  derives_empty_iff

theorem derives_sequence_cons_iff {forms : List Form} :
    Derives limit (.sequence (form :: forms)) u ↔
      ∃ v w, u = v ++ w ∧ Derives limit form v ∧ Derives limit (.sequence forms) w :=
  derives_seq_iff

theorem derives_sequence_token_iff {forms : List Form} :
    Derives limit (.sequence (.token kind :: forms)) u ↔
      ∃ t v, u = t :: v ∧ t.kind.sameForm kind = true ∧ Derives limit (.sequence forms) v := by
  rw [derives_sequence_cons_iff]
  constructor
  · rintro ⟨v, w, rfl, hv, hw⟩
    obtain ⟨t, rfl, ht⟩ := derives_token_iff.mp hv
    exact ⟨t, w, rfl, ht, hw⟩
  · rintro ⟨t, v, rfl, ht, hv⟩
    exact ⟨[t], v, rfl, .token ht, hv⟩

theorem derives_single_iff : Derives limit (.sequence [form]) u ↔ Derives limit form u := by
  simp [derives_sequence_cons_iff, derives_sequence_nil_iff]

theorem derives_pair_iff : Derives limit (.sequence [first, second]) u ↔
    ∃ v w, u = v ++ w ∧ Derives limit first v ∧ Derives limit second w := by
  simp [derives_sequence_cons_iff, derives_sequence_nil_iff]

theorem derives_oneOf_iff {forms : List Form} :
    Derives limit (.oneOf forms) u ↔ ∃ form ∈ forms, Derives limit form u := by
  induction forms with
  | nil => simp [Form.oneOf, derives_never_iff]
  | cons form forms ih =>
    simp only [List.mem_cons, exists_eq_or_imp, ← ih]
    exact derives_either_iff

theorem derives_optional_iff :
    Derives limit (.optional form) u ↔ Derives limit form u ∨ u = [] := by
  simp [Form.optional, derives_oneOf_iff, derives_empty_iff]

/-! ### Repetitions -/

theorem Derives.many_nil : Derives limit (.many form) [] :=
  .many 0 .none

theorem Derives.many_cons (hfirst : Derives limit form u) (hothers : Derives limit (.many form) v) :
    Derives limit (.many form) (u ++ v) := by
  cases hothers with
  | many count h => exact .many (count + 1) (.more hfirst h)

theorem derives_times_zero_iff : Derives limit (.times 0 form) u ↔ u = [] := by
  constructor
  · intro h
    cases h
    rfl
  · rintro rfl
    exact .none

theorem derives_times_succ_iff {count : Nat} : Derives limit (.times (count + 1) form) u ↔
    ∃ v w, u = v ++ w ∧ Derives limit form v ∧ Derives limit (.times count form) w := by
  constructor
  · intro h
    cases h with
    | more hfirst hothers => exact ⟨_, _, rfl, hfirst, hothers⟩
  · rintro ⟨v, w, rfl, hfirst, hothers⟩
    exact .more hfirst hothers

theorem derives_many_iff : Derives limit (.many form) u ↔
    u = [] ∨ ∃ v w, u = v ++ w ∧ Derives limit form v ∧ Derives limit (.many form) w := by
  constructor
  · intro h
    cases h with
    | many count h =>
      rcases count with _ | count
      · exact .inl (derives_times_zero_iff.mp h)
      · obtain ⟨v, w, rfl, hfirst, hothers⟩ := derives_times_succ_iff.mp h
        exact .inr ⟨v, w, rfl, hfirst, .many count hothers⟩
  · rintro (rfl | ⟨v, w, rfl, hfirst, hothers⟩)
    · exact .many_nil
    · exact .many_cons hfirst hothers

/-- One more may also come last. -/
theorem Derives.many_concat (hothers : Derives limit (.many form) u)
    (hlast : Derives limit form v) : Derives limit (.many form) (u ++ v) := by
  cases hothers with
  | many count h =>
    induction count generalizing u with
    | zero =>
      rw [derives_times_zero_iff.mp h, List.nil_append, ← List.append_nil v]
      exact .many_cons hlast .many_nil
    | succ count ih =>
      obtain ⟨w, x, rfl, hfirst, hothers⟩ := derives_times_succ_iff.mp h
      rw [List.append_assoc]
      exact .many_cons hfirst (ih hothers)

theorem derives_list_iff : Derives limit (.list form) u ↔
    ∃ others v w, u = v ++ w ∧ others + 1 ≤ limit ∧ Derives limit form v
      ∧ Derives limit (.times others (.sequence [.token .comma, form])) w := by
  constructor
  · intro h
    cases h with
    | list hlimit hfirst hothers => exact ⟨_, _, _, rfl, hlimit, hfirst, hothers⟩
  · rintro ⟨others, v, w, rfl, hlimit, hfirst, hothers⟩
    exact .list hlimit hfirst hothers

/-! ### Expressions -/

theorem derives_expression_iff : Derives limit (.part .expression) u ↔
    (∃ v t w, u = v ++ t :: w ∧ Derives limit target v ∧ t.kind.sameForm .equal = true
      ∧ Derives limit (.part .expression) w) ∨ Derives limit (.part .logicOr) u := by
  have hassignment (w : List Token) :
      Derives limit (.part .expression) w ↔ Derives limit (.part .assignment) w := derives_part_iff
  rw [hassignment, derives_part_iff]
  simp only [Part.rule, derives_oneOf_iff, List.mem_cons, List.not_mem_nil, or_false,
    exists_eq_or_imp, exists_eq_left, hassignment]
  refine or_congr_left ?_
  rw [derives_sequence_cons_iff]
  constructor
  · rintro ⟨v, x, rfl, hv, hx⟩
    obtain ⟨t, w, rfl, ht, hw⟩ := derives_sequence_token_iff.mp hx
    exact ⟨v, t, w, rfl, hv, ht, derives_single_iff.mp hw⟩
  · rintro ⟨v, t, w, rfl, hv, ht, hw⟩
    exact ⟨v, t :: w, rfl, hv,
      derives_sequence_token_iff.mpr ⟨t, w, rfl, ht, derives_single_iff.mpr hw⟩⟩

theorem derives_target_iff : Derives limit target u ↔
    (∃ t, u = [t] ∧ t.kind.sameForm .identifier = true)
      ∨ ∃ v dot name, u = v ++ [dot, name] ∧ Derives limit (.part .call) v
        ∧ dot.kind.sameForm .dot = true ∧ name.kind.sameForm .identifier = true := by
  rw [target, derives_pair_iff]
  simp only [derives_optional_iff, derives_pair_iff, derives_token_iff]
  constructor
  · rintro ⟨v, w, rfl, ⟨x, y, rfl, hx, dot, rfl, hdot⟩ | rfl, name, rfl, hname⟩
    · exact .inr ⟨x, dot, name, by simp, hx, hdot, hname⟩
    · exact .inl ⟨name, rfl, hname⟩
  · rintro (⟨t, rfl, ht⟩ | ⟨v, dot, name, rfl, hv, hdot, hname⟩)
    · exact ⟨[], [t], rfl, .inr rfl, t, rfl, ht⟩
    · exact ⟨v ++ [dot], [name], by simp, .inl ⟨v, [dot], rfl, hv, dot, rfl, hdot⟩,
        name, rfl, hname⟩

theorem derives_unary_iff : Derives limit (.part .unary) u ↔
    (∃ t v, u = t :: v ∧ (t.kind.sameForm .bang = true ∨ t.kind.sameForm .minus = true)
      ∧ Derives limit (.part .unary) v) ∨ Derives limit (.part .call) u := by
  rw [derives_part_iff]
  simp only [Part.rule, derives_oneOf_iff, derives_pair_iff, derives_token_iff, List.mem_cons,
    List.not_mem_nil, or_false, exists_eq_or_imp, exists_eq_left]
  refine or_congr_left ?_
  constructor
  · rintro ⟨v, w, rfl, ⟨t, rfl, ht⟩ | ⟨t, rfl, ht⟩, hw⟩
    · exact ⟨t, w, rfl, .inl ht, hw⟩
    · exact ⟨t, w, rfl, .inr ht, hw⟩
  · rintro ⟨t, v, rfl, ht, hv⟩
    exact ⟨[t], v, rfl, ht.imp (fun h => ⟨t, rfl, h⟩) fun h => ⟨t, rfl, h⟩, hv⟩

theorem derives_call_iff : Derives limit (.part .call) u ↔
    ∃ v w, u = v ++ w ∧ Derives limit (.part .primary) v ∧ Derives limit (.many suffix) w :=
  derives_part_iff.trans derives_pair_iff

theorem derives_suffix_iff : Derives limit suffix u ↔
    (∃ opening v closing, u = opening :: (v ++ [closing])
      ∧ opening.kind.sameForm .leftParen = true ∧ Derives limit (.optional (.part .arguments)) v
      ∧ closing.kind.sameForm .rightParen = true)
    ∨ ∃ dot name, u = [dot, name] ∧ dot.kind.sameForm .dot = true
        ∧ name.kind.sameForm .identifier = true := by
  simp only [suffix, derives_oneOf_iff, List.mem_cons, List.not_mem_nil, or_false,
    exists_eq_or_imp, exists_eq_left]
  refine or_congr ?_ ?_
  · rw [derives_sequence_token_iff]
    simp only [derives_pair_iff, derives_token_iff]
    constructor
    · rintro ⟨opening, v, rfl, hopening, w, x, rfl, hw, closing, rfl, hclosing⟩
      exact ⟨opening, w, closing, rfl, hopening, hw, hclosing⟩
    · rintro ⟨opening, v, closing, rfl, hopening, hv, hclosing⟩
      exact ⟨opening, _, rfl, hopening, v, [closing], rfl, hv, closing, rfl, hclosing⟩
  · simp only [derives_pair_iff, derives_token_iff]
    constructor
    · rintro ⟨v, w, rfl, ⟨dot, rfl, hdot⟩, name, rfl, hname⟩
      exact ⟨dot, name, rfl, hdot, hname⟩
    · rintro ⟨dot, name, rfl, hdot, hname⟩
      exact ⟨[dot], [name], rfl, ⟨dot, rfl, hdot⟩, name, rfl, hname⟩

/-- The kinds of tokens that are operands on their own. -/
def operandKinds : List TokenKind :=
  [.number 0, .string "", .kwTrue, .kwFalse, .kwNil, .kwThis, .identifier]

theorem derives_primary_iff : Derives limit (.part .primary) u ↔
    (∃ kind ∈ operandKinds, Derives limit (.token kind) u)
      ∨ Derives limit (.sequence [.token .leftParen, .part .expression, .token .rightParen]) u
      ∨ Derives limit (.sequence [.token .kwSuper, .token .dot, .token .identifier]) u := by
  rw [derives_part_iff]
  simp [Part.rule, derives_oneOf_iff, operandKinds, or_assoc]

theorem derives_operand {t : Token} (hkind : kind ∈ operandKinds)
    (h : t.kind.sameForm kind = true) : Derives limit (.part .primary) [t] :=
  derives_primary_iff.mpr (.inl ⟨kind, hkind, .token h⟩)

theorem not_end_of_operand {t : Token} (hkind : kind ∈ operandKinds)
    (h : t.kind.sameForm kind = true) : t.kind ≠ .eof := by
  intro hend
  rw [hend] at h
  simp only [operandKinds, List.mem_cons, List.not_mem_nil, or_false] at hkind
  rcases hkind with rfl | rfl | rfl | rfl | rfl | rfl | rfl <;> cases h

/-! ### Statements -/

/-- The parts that are statements. -/
def statementParts : List Part :=
  [.exprStmt, .forStmt, .ifStmt, .printStmt, .returnStmt, .whileStmt, .block]

theorem derives_statement_iff : Derives limit (.part .statement) u ↔
    ∃ part ∈ statementParts, Derives limit (.part part) u := by
  rw [derives_part_iff]
  simp [Part.rule, derives_oneOf_iff, statementParts]

theorem Derives.statement (h : Derives limit (.part part) u) (hpart : part ∈ statementParts) :
    Derives limit (.part .statement) u :=
  derives_statement_iff.mpr ⟨part, hpart, h⟩

/-! ### First tokens -/

section

open TokenKind

/-- The kinds of tokens an operand can start with, when no operator stands before it. -/
def primaryStarts : List TokenKind :=
  leftParen :: kwSuper :: operandKinds

def expressionStarts : List TokenKind :=
  bang :: minus :: primaryStarts

def statementStarts : List TokenKind :=
  [kwFor, kwIf, kwPrint, kwReturn, kwWhile, leftBrace] ++ expressionStarts

def declarationStarts : List TokenKind :=
  [kwClass, kwFun, kwVar] ++ statementStarts

/-- The kinds of tokens that a part can start with. -/
def Part.starts : Part → List TokenKind
  | .program => eof :: declarationStarts
  | .declaration => declarationStarts
  | .classDecl => [kwClass]
  | .funDecl => [kwFun]
  | .function | .parameters => [identifier]
  | .varDecl => [kwVar]
  | .statement => statementStarts
  | .forStmt => [kwFor]
  | .ifStmt => [kwIf]
  | .printStmt => [kwPrint]
  | .returnStmt => [kwReturn]
  | .whileStmt => [kwWhile]
  | .block => [leftBrace]
  | .exprStmt | .arguments | .expression | .assignment | .logicOr | .logicAnd | .equality
  | .comparison | .term | .factor | .unary => expressionStarts
  | .call | .primary => primaryStarts

end

/-- Can the form go without a token? -/
def Form.canBeEmpty : Form → Bool
  | .token _ | .part _ | .never => false
  | .empty | .times _ _ | .many _ => true
  | .seq first second => first.canBeEmpty && second.canBeEmpty
  | .either left right => left.canBeEmpty || right.canBeEmpty
  | .list entry => entry.canBeEmpty

/-- The kinds of tokens that a form can start with. -/
def Form.starts : Form → List TokenKind
  | .token kind => [kind]
  | .part part => part.starts
  | .empty | .never => []
  | .seq first second => first.starts ++ if first.canBeEmpty then second.starts else []
  | .either left right => left.starts ++ right.starts
  | .times _ form | .many form => form.starts
  | .list entry => entry.starts ++ if entry.canBeEmpty then [.comma] else []

/-- Is the kind one of those, but for the constant it carries? -/
def oneOfKinds (kinds : List TokenKind) (kind : TokenKind) : Bool :=
  kinds.any kind.sameForm

/-- The table of first tokens agrees with the rules. -/
theorem rule_starts (part : Part) : part.rule.canBeEmpty = false
    ∧ ∀ kind ∈ part.rule.starts, oneOfKinds part.starts kind = true := by
  cases part <;> decide

/-- What a form derives is empty, if it can be, or starts as the form says. -/
theorem Derives.starts (h : Derives limit form u) : (u = [] ∧ form.canBeEmpty = true)
    ∨ ∃ t v, u = t :: v ∧ oneOfKinds form.starts t.kind = true := by
  induction h with
  | token h => exact .inr ⟨_, [], rfl, by simpa [oneOfKinds, Form.starts] using h⟩
  | @part part u _ ih =>
    obtain ⟨hempty, hstarts⟩ := rule_starts part
    rcases ih with ⟨_, h⟩ | ⟨t, v, rfl, h⟩
    · rw [hempty] at h
      cases h
    · refine .inr ⟨t, v, rfl, ?_⟩
      obtain ⟨kind, hkind, hsame⟩ := List.any_eq_true.mp h
      obtain ⟨kind', hkind', hsame'⟩ := List.any_eq_true.mp (hstarts kind hkind)
      exact List.any_eq_true.mpr ⟨kind', hkind', TokenKind.sameForm_trans hsame hsame'⟩
  | empty => exact .inl ⟨rfl, rfl⟩
  | seq _ _ ihfirst ihsecond =>
    rcases ihfirst with ⟨rfl, hempty⟩ | ⟨t, v, rfl, h⟩
    · rcases ihsecond with ⟨rfl, hempty'⟩ | ⟨t, v, rfl, h⟩
      · exact .inl ⟨rfl, by simp [Form.canBeEmpty, hempty, hempty']⟩
      · refine .inr ⟨t, v, rfl, ?_⟩
        simp only [oneOfKinds, Form.starts, hempty, if_true, List.any_append, Bool.or_eq_true]
        exact .inr h
    · refine .inr ⟨t, _, rfl, ?_⟩
      simp only [oneOfKinds, Form.starts, List.any_append, Bool.or_eq_true]
      exact .inl h
  | left _ ih =>
    refine ih.imp (fun ⟨hu, h⟩ => ⟨hu, by simp [Form.canBeEmpty, h]⟩) fun ⟨t, v, hu, h⟩ =>
      ⟨t, v, hu, ?_⟩
    simp only [oneOfKinds, Form.starts, List.any_append, Bool.or_eq_true]
    exact .inl h
  | right _ ih =>
    refine ih.imp (fun ⟨hu, h⟩ => ⟨hu, by simp [Form.canBeEmpty, h]⟩) fun ⟨t, v, hu, h⟩ =>
      ⟨t, v, hu, ?_⟩
    simp only [oneOfKinds, Form.starts, List.any_append, Bool.or_eq_true]
    exact .inr h
  | none => exact .inl ⟨rfl, rfl⟩
  | more _ _ ihfirst ihothers =>
    rcases ihfirst with ⟨rfl, _⟩ | ⟨t, v, rfl, h⟩
    · exact ihothers.imp_left fun ⟨hv, _⟩ => ⟨hv, rfl⟩
    · exact .inr ⟨t, _, rfl, h⟩
  | many _ _ ih => exact ih.imp_left fun ⟨hu, _⟩ => ⟨hu, rfl⟩
  | list _ _ _ ihfirst ihothers =>
    rcases ihfirst with ⟨rfl, hempty⟩ | ⟨t, v, rfl, h⟩
    · rcases ihothers with ⟨rfl, _⟩ | ⟨t, v, rfl, h⟩
      · exact .inl ⟨rfl, hempty⟩
      · refine .inr ⟨t, v, rfl, ?_⟩
        simp only [oneOfKinds, Form.starts, hempty, if_true, List.any_append, Bool.or_eq_true]
        exact .inr h
    · refine .inr ⟨t, _, rfl, ?_⟩
      simp only [oneOfKinds, Form.starts, List.any_append, Bool.or_eq_true]
      exact .inl h

theorem Derives.part_starts (h : Derives limit (.part part) u) :
    ∃ t v, u = t :: v ∧ oneOfKinds part.starts t.kind = true := by
  rcases h.starts with ⟨_, hempty⟩ | hstarts
  · cases hempty
  · exact hstarts

theorem sameForm_eq_false {kinds : List TokenKind} {kind other : TokenKind}
    (h : oneOfKinds kinds kind = true) (hother : oneOfKinds kinds other = false) :
    kind.sameForm other = false := by
  rcases hsame : kind.sameForm other with _ | _
  · rfl
  · obtain ⟨start, hstart, hform⟩ := List.any_eq_true.mp h
    have hotherForm := TokenKind.sameForm_trans (TokenKind.sameForm_symm hsame) hform
    have hmem : oneOfKinds kinds other = true := List.any_eq_true.mpr ⟨start, hstart, hotherForm⟩
    rw [hother] at hmem
    cases hmem

/-- A part does not start with a token that the table does not list for it. -/
theorem Derives.head_ne (h : Derives limit (.part part) u)
    (hkind : oneOfKinds part.starts kind = false) (rest : List Token) :
    ∀ t ∈ (u ++ rest).head?, t.kind.sameForm kind = false := by
  obtain ⟨t, v, rfl, hstart⟩ := h.part_starts
  intro t' ht'
  cases ht'
  exact sameForm_eq_false hstart hkind

end Grammar

end Treewalk
