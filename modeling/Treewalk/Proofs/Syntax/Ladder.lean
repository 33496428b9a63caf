import Mathlib.Data.List.Forall2
import Treewalk.Proofs.Syntax.Derivation

/-!
# The ladder of operators

**A tree that was read without an error, written out flat, gives back the tokens that were read,
and every operand in it stands high enough on the ladder for its operator.**  The rungs are
numbered by how tightly they bind.  Operators that join two operands take the left one from their
own rung and the right one from above it, so a row of them hangs to the left; an assignment, and an
operator in front of its operand, take the operand behind them from their own rung.

A tree keeps the lines of names, of operators and keywords, and of the parenthesis that closes a
call.  Of the other tokens it keeps the kind only.
-/

namespace Treewalk

/-! ### Trees written out flat -/

/-- What a tree tells of one of its tokens. -/
inductive Mark where
  | sign (kind : TokenKind)
  | signAt (kind : TokenKind) (line : Nat)
  | name (name : Name)

/-- The kind of the token. -/
def Mark.kind : Mark → TokenKind
  | .sign kind | .signAt kind _ => kind
  | .name _ => .identifier

/-- The token is as the mark tells. -/
def Token.Shows (t : Token) : Mark → Prop
  | .sign kind => t.kind = kind
  | .signAt kind line => t.kind = kind ∧ t.line = line
  | .name name => t.kind = .identifier ∧ t.lexeme = name.text ∧ t.line = name.line

/-- The kind of token that writes a constant. -/
def Literal.kind : Literal → TokenKind
  | .number value => .number value
  | .string value => .string value
  | .true => .kwTrue
  | .false => .kwFalse
  | .nil => .kwNil

mutual

/-- The expression written out flat: operators between their operands, parentheses where the tree
    has a grouping or a call. -/
def Expr.marks : Expr → List Mark
  | .literal value => [.sign value.kind]
  | .grouping inner => .sign .leftParen :: (inner.marks ++ [.sign .rightParen])
  | .unary op line operand => .signAt op.kind line :: operand.marks
  | .binary op line left right => left.marks ++ .signAt op.kind line :: right.marks
  | .logical op line left right => left.marks ++ .signAt op.kind line :: right.marks
  | .variable name _ => [.name name]
  | .assign name _ value => .name name :: .sign .equal :: value.marks
  | .call callee line args =>
    callee.marks ++ .sign .leftParen :: (argumentMarks args ++ [.signAt .rightParen line])
  | .get object name => object.marks ++ [.sign .dot, .name name]
  | .set object name value =>
    object.marks ++ .sign .dot :: .name name :: .sign .equal :: value.marks
  | .this line _ => [.signAt .kwThis line]
  | .super line _ method => [.signAt .kwSuper line, .sign .dot, .name method]

/-- Arguments written out flat, with commas between them. -/
def argumentMarks : List Expr → List Mark
  | [] => []
  | [argument] => argument.marks
  | argument :: next :: args => argument.marks ++ .sign .comma :: argumentMarks (next :: args)

end

/-- The tokens are one by one as the marks tell. -/
def Shown (u : List Token) (marks : List Mark) : Prop :=
  List.Forall₂ Token.Shows u marks

/-! ### Rungs -/

/-- The level on which the operator joins its operands. -/
def BinaryOp.level : BinaryOp → Parser.Level
  | .equal | .notEqual => .equality
  | .less | .lessEqual | .greater | .greaterEqual => .comparison
  | .add | .subtract => .term
  | .multiply | .divide => .factor

@[inherit_doc BinaryOp.level]
def LogicalOp.level : LogicalOp → Parser.Level
  | .or => .or
  | .and => .and

/-- The rung of a level: one for the loosest, six for the tightest. -/
def Parser.Level.rung : Parser.Level → Nat
  | .or => 1
  | .and => 2
  | .equality => 3
  | .comparison => 4
  | .term => 5
  | .factor => 6

/-- The rung on which an expression stands.  Assignments stand on the lowest, operators in front of
    an operand above all levels, then calls and accesses, and what is closed in itself on top. -/
def Expr.rung : Expr → Nat
  | .assign _ _ _ | .set _ _ _ => 0
  | .logical op _ _ _ => op.level.rung
  | .binary op _ _ _ => op.level.rung
  | .unary _ _ _ => 7
  | .call _ _ _ | .get _ _ => 8
  | .literal _ | .grouping _ | .variable _ _ | .this _ _ | .super _ _ _ => 9

mutual

/-- Every operand stands high enough for its operator, and no call has too many arguments. -/
def Expr.OnLadder : Expr → Prop
  | .literal _ | .variable _ _ | .this _ _ | .super _ _ _ => True
  | .grouping inner => inner.OnLadder
  | .unary _ _ operand => operand.OnLadder ∧ 7 ≤ operand.rung
  | .binary op _ left right => left.OnLadder ∧ right.OnLadder
    ∧ op.level.rung ≤ left.rung ∧ op.level.rung < right.rung
  | .logical op _ left right => left.OnLadder ∧ right.OnLadder
    ∧ op.level.rung ≤ left.rung ∧ op.level.rung < right.rung
  | .assign _ _ value => value.OnLadder
  | .call callee _ args => callee.OnLadder ∧ 8 ≤ callee.rung
    ∧ ArgumentsOnLadder args ∧ args.length ≤ maxArity
  | .get object _ => object.OnLadder ∧ 8 ≤ object.rung
  | .set object _ value => object.OnLadder ∧ 8 ≤ object.rung ∧ value.OnLadder

/-- The same of every argument. -/
def ArgumentsOnLadder : List Expr → Prop
  | [] => True
  | argument :: args => argument.OnLadder ∧ ArgumentsOnLadder args

end

/-! ### Tokens and marks in sequence -/

theorem TokenKind.sameForm_of_eq {kind other : TokenKind} (h : kind = other) :
    kind.sameForm other = true := by
  simp [h, sameForm]

theorem Token.Shows.kind_eq {t : Token} {mark : Mark} (h : t.Shows mark) : t.kind = mark.kind := by
  cases mark with
  | sign kind => exact h
  | signAt kind line => exact h.1
  | name name => exact h.1

section Sequences

variable {t : Token} {u v : List Token} {mark : Mark} {marks others : List Mark}

theorem shown_nil_iff : Shown u [] ↔ u = [] :=
  List.forall₂_nil_right_iff

theorem shown_cons_iff :
    Shown u (mark :: marks) ↔ ∃ t v, t.Shows mark ∧ Shown v marks ∧ u = t :: v :=
  List.forall₂_cons_right_iff

theorem Shown.append (hu : Shown u marks) (hv : Shown v others) :
    Shown (u ++ v) (marks ++ others) :=
  List.rel_append hu hv

theorem shown_append_iff :
    Shown u (marks ++ others) ↔ ∃ v w, u = v ++ w ∧ Shown v marks ∧ Shown w others := by
  constructor
  · intro h
    exact ⟨_, _, (List.take_append_drop _ _).symm, List.forall₂_take_append _ _ _ h,
      List.forall₂_drop_append _ _ _ h⟩
  · rintro ⟨v, w, rfl, hv, hw⟩
    exact hv.append hw

/-- Around a mark in the middle, the tokens are shown in two parts. -/
theorem shown_append_cons_iff : Shown u (marks ++ mark :: others) ↔
    ∃ v t w, u = v ++ t :: w ∧ Shown v marks ∧ t.Shows mark ∧ Shown w others := by
  rw [shown_append_iff]
  constructor
  · rintro ⟨v, x, rfl, hv, hx⟩
    obtain ⟨t, w, ht, hw, rfl⟩ := shown_cons_iff.mp hx
    exact ⟨v, t, w, rfl, hv, ht, hw⟩
  · rintro ⟨v, t, w, rfl, hv, ht, hw⟩
    exact ⟨v, t :: w, rfl, hv, .cons ht hw⟩

theorem shown_single (h : t.Shows mark) : Shown [t] [mark] :=
  .cons h .nil

end Sequences

namespace Parser

variable {α β : Type} {level : Level} {tighter : List Level} {t : Token} {u v : List Token}

/-- The rung on which operands are joined by the first of the levels. -/
def joinedRung : List Level → Nat
  | [] => 7
  | level :: _ => level.rung

theorem joinedRung_tighter (h : level :: tighter <:+ Level.all) :
    joinedRung tighter = level.rung + 1 := by
  rw [tighter_of_suffix h]
  cases level <;> rfl

/-- An operator of a level is one of the two sorts, and makes a node with its line. -/
theorem join_cases {join : Expr → Expr → Expr} (h : level.join? t = some join) :
    (∃ op : BinaryOp, op.level = level ∧ t.kind = op.kind ∧ join = .binary op t.line)
      ∨ ∃ op : LogicalOp, op.level = level ∧ t.kind = op.kind ∧ join = .logical op t.line := by
  unfold Level.join? at h
  split at h <;> cases h
  case h_1 hkind => exact .inr ⟨.or, rfl, hkind, rfl⟩
  case h_2 hkind => exact .inr ⟨.and, rfl, hkind, rfl⟩
  case h_3 hkind => exact .inl ⟨.notEqual, rfl, hkind, rfl⟩
  case h_4 hkind => exact .inl ⟨.equal, rfl, hkind, rfl⟩
  case h_5 hkind => exact .inl ⟨.greater, rfl, hkind, rfl⟩
  case h_6 hkind => exact .inl ⟨.greaterEqual, rfl, hkind, rfl⟩
  case h_7 hkind => exact .inl ⟨.less, rfl, hkind, rfl⟩
  case h_8 hkind => exact .inl ⟨.lessEqual, rfl, hkind, rfl⟩
  case h_9 hkind => exact .inl ⟨.subtract, rfl, hkind, rfl⟩
  case h_10 hkind => exact .inl ⟨.add, rfl, hkind, rfl⟩
  case h_11 hkind => exact .inl ⟨.multiply, rfl, hkind, rfl⟩
  case h_12 hkind => exact .inl ⟨.divide, rfl, hkind, rfl⟩

/-! ### What is read stands on the ladder -/

/-- The tokens show the tree, and it stands on the rung or above it. -/
structure Yields (rung : Nat) (e : Expr) (u : List Token) : Prop where
  shown : Shown u e.marks
  onLadder : e.OnLadder
  rung_le : rung ≤ e.rung

theorem Yields.mono {rung lower : Nat} {e : Expr} (h : Yields rung e u) (hlower : lower ≤ rung) :
    Yields lower e u :=
  ⟨h.shown, h.onLadder, Nat.le_trans hlower h.rung_le⟩

/-- A row of operators of one level grows by an operand on the right. -/
theorem Yields.join {join : Expr → Expr → Expr} {left right : Expr}
    (hlevels : level :: tighter <:+ Level.all) (hjoin : level.join? t = some join)
    (hleft : Yields level.rung left u) (hright : Yields (joinedRung tighter) right v) :
    Yields level.rung (join left right) (u ++ t :: v) := by
  have hrung : level.rung < right.rung := by
    have h := hright.rung_le
    rw [joinedRung_tighter hlevels] at h
    exact h
  rcases join_cases hjoin with ⟨op, rfl, hkind, rfl⟩ | ⟨op, rfl, hkind, rfl⟩
  all_goals exact ⟨hleft.shown.append (.cons ⟨hkind, rfl⟩ hright.shown),
    ⟨hleft.onLadder, hright.onLadder, hleft.rung_le, hrung⟩, Nat.le_refl _⟩

/-- Arguments of which `count` were read before, with the commas between them. -/
structure YieldsArguments (count : Nat) (args : List Expr) (u : List Token) : Prop where
  shown : Shown u (argumentMarks args)
  onLadder : ArgumentsOnLadder args
  nonempty : args ≠ []
  length_le : count + args.length ≤ maxArity

theorem YieldsArguments.cons {count : Nat} {argument : Expr} {args : List Expr}
    (hargument : Yields 0 argument u) (hcomma : t.kind = .comma)
    (hargs : YieldsArguments (count + 1) args v) :
    YieldsArguments count (argument :: args) (u ++ t :: v) := by
  obtain ⟨hshown, honLadder, hne, hlength⟩ := hargs
  obtain ⟨next, others, rfl⟩ := List.exists_cons_of_ne_nil hne
  refine ⟨?_, ⟨hargument.onLadder, honLadder⟩, nofun, ?_⟩
  · rw [argumentMarks]
    exact hargument.shown.append (.cons hcomma hshown)
  · simp only [List.length_cons] at hlength ⊢
    omega

/-! ### Single tokens, kept -/

theorem consumes_expect_kind {kind : TokenKind} {what : Wanted} (hkind : kind ∈ TokenKind.bare) :
    Consumes (expect kind what) fun t u => u = [t] ∧ t.kind = kind :=
  consumes_accept
    (fun _ ht => consumes_pure ⟨rfl, TokenKind.eq_of_sameForm ht hkind⟩) (consumes_fail _)

theorem consumes_expectName {what : Wanted} :
    Consumes (expectName what) fun name u => Shown u [.name name] := by
  refine (consumes_expect_kind (by simp [TokenKind.bare])).bind fun t => consumes_pure ?_
  rintro _ ⟨rfl, hkind⟩
  exact shown_single ⟨hkind, rfl, rfl⟩

/-- An operand that is written with a single token. -/
theorem consumesAt_shown {p : Parser Expr} (hend : t.kind ≠ .eof)
    (hp : Consumes p fun e u => u = [] ∧ Shown [t] e.marks ∧ e.OnLadder ∧ 9 ≤ e.rung) :
    ConsumesAt t (do skip; p) (Yields 9) := by
  refine consumesAt_skip hend (hp.imp ?_)
  rintro e _ ⟨rfl, hshown, honLadder, hrung⟩
  exact ⟨hshown, honLadder, hrung⟩

mutual

theorem yields_expression : ∀ steps : Nat, Consumes (expression steps) (Yields 0)
  | 0 => consumes_fail _
  | steps + 1 => by
    rw [expression]
    refine (yields_joined steps Level.all (List.suffix_refl _)).bind fun target => ?_
    refine consumes_accept (fun sign hsign => ?_) (consumes_pure fun u hu => ?_)
    · have hequal := TokenKind.eq_of_sameForm hsign (by simp [TokenKind.bare])
      refine (yields_expression steps).bind fun value => ?_
      cases target
      case «variable» name id =>
        refine consumes_freshId.after_none fun _ => consumes_pure fun v hv u hu => ?_
        rw [List.append_nil]
        exact ⟨hu.shown.append (.cons hequal hv.shown), hv.onLadder, Nat.zero_le _⟩
      case get object name =>
        refine consumes_pure fun v hv u hu => ?_
        rw [List.append_nil]
        refine ⟨?_, ⟨hu.onLadder.1, hu.onLadder.2, hv.onLadder⟩, Nat.zero_le _⟩
        have hsign : Shown (sign :: v) (.sign .equal :: value.marks) := .cons hequal hv.shown
        simpa [Expr.marks] using hu.shown.append hsign
      all_goals
        exact (consumes_of_noting (P := fun _ _ => False) (gives_note_noting sign _)).bind fun _ =>
          consumes_pure fun _ h => h.elim
    · rw [List.append_nil]
      exact hu.mono (Nat.zero_le _)

theorem yields_joined : ∀ (steps : Nat) (levels : List Level), levels <:+ Level.all →
    Consumes (joined steps levels) (Yields (joinedRung levels))
  | 0, _, _ => consumes_fail _
  | steps + 1, [], _ => by
    rw [joined]
    exact yields_unary steps
  | steps + 1, level :: tighter, h => by
    rw [joined]
    have htighter : tighter <:+ Level.all := (List.suffix_cons _ _).trans h
    refine (yields_joined steps tighter htighter).bind fun left =>
      (yields_joinedFrom steps level tighter left h).imp fun e v hv u hu => hv u (hu.mono ?_)
    rw [joinedRung_tighter h]
    exact Nat.le_succ _

theorem yields_joinedFrom : ∀ (steps : Nat) (level : Level) (tighter : List Level) (left : Expr),
    level :: tighter <:+ Level.all → Consumes (joinedFrom steps level tighter left) fun e v =>
      ∀ u, Yields level.rung left u → Yields level.rung e (u ++ v)
  | 0, _, _, _, _ => consumes_fail _
  | steps + 1, level, tighter, left, h => by
    have htighter : tighter <:+ Level.all := (List.suffix_cons _ _).trans h
    rw [joinedFrom]
    refine consumes_acceptJoin (fun t join hjoin => ?_) (consumes_pure fun u hu => ?_)
    · refine (yields_joined steps tighter htighter).bind fun right => ?_
      refine (yields_joinedFrom steps level tighter (join left right) h).imp ?_
      intro e w hw v hv u hu
      have hmore := hw _ (hu.join h hjoin hv)
      rwa [List.append_assoc] at hmore
    · rwa [List.append_nil]

theorem yields_unary : ∀ steps : Nat, Consumes (unary steps) (Yields 7)
  | 0 => consumes_fail _
  | steps + 1 => by
    have hoperator (op : UnaryOp) (t : Token) (ht : t.kind.sameForm op.kind = true) :
        Consumes (do return .unary op t.line (← unary steps)) fun e v => Yields 7 e (t :: v) := by
      have hkind : t.kind = op.kind :=
        TokenKind.eq_of_sameForm ht (by cases op <;> simp [UnaryOp.kind, TokenKind.bare])
      refine (yields_unary steps).bind fun operand => consumes_pure fun u hu => ?_
      rw [List.append_nil]
      exact ⟨.cons ⟨hkind, rfl⟩ hu.shown, ⟨hu.onLadder, hu.rung_le⟩, Nat.le_refl _⟩
    rw [unary]
    refine consumes_accept (hoperator .not) (consumes_accept (hoperator .negate) ?_)
    refine (yields_primary steps).bind fun e => (yields_calls steps e).imp fun e' v hv u hu => ?_
    exact (hv u (hu.mono (by decide))).mono (by decide)

theorem yields_calls : ∀ (steps : Nat) (left : Expr), Consumes (calls steps left) fun e v =>
    ∀ u, Yields 8 left u → Yields 8 e (u ++ v)
  | 0, _ => consumes_fail _
  | steps + 1, left => by
    rw [calls]
    refine consumes_accept (fun opening hopening => ?_) (consumes_accept (fun dot hdot => ?_) ?_)
    · have hleftParen := TokenKind.eq_of_sameForm hopening (by simp [TokenKind.bare])
      refine (yields_listBefore steps).bind fun args => ?_
      refine (consumes_expect_kind (by simp [TokenKind.bare])).bind fun closing => ?_
      refine (yields_calls steps (.call left closing.line args)).imp ?_
      rintro e x hx _ ⟨rfl, hclosing⟩ w ⟨hargs, honLadder, hlength⟩ u hu
      have hsuffix : Shown (opening :: (w ++ [closing]))
          (.sign .leftParen :: (argumentMarks args ++ [.signAt .rightParen closing.line])) :=
        .cons hleftParen (hargs.append (shown_single ⟨hclosing, rfl⟩))
      have hmore := hx _ ⟨hu.shown.append hsuffix,
        ⟨hu.onLadder, hu.rung_le, honLadder, hlength⟩, Nat.le_refl _⟩
      simpa using hmore
    · have hkind := TokenKind.eq_of_sameForm hdot (by simp [TokenKind.bare])
      refine consumes_expectName.bind fun name => ?_
      refine (yields_calls steps (.get left name)).imp fun e w hw v hv u hu => ?_
      have hsuffix : Shown (dot :: v) [.sign .dot, .name name] := .cons hkind hv
      have hmore := hw _ ⟨hu.shown.append hsuffix, ⟨hu.onLadder, hu.rung_le⟩, Nat.le_refl _⟩
      simpa using hmore
    · exact consumes_pure fun u hu => by rwa [List.append_nil]

theorem yields_listBefore (steps : Nat) :
    Consumes (listBefore .rightParen (arguments steps 0)) fun args u =>
      Shown u (argumentMarks args) ∧ ArgumentsOnLadder args ∧ args.length ≤ maxArity := by
  unfold listBefore
  refine (consumes_isNext _).after_none fun isNext => ?_
  cases isNext
  · refine (yields_arguments steps 0).imp fun args u h => ⟨h.shown, h.onLadder, ?_⟩
    simpa using h.length_le
  · exact consumes_pure ⟨.nil, trivial, Nat.zero_le _⟩

theorem yields_arguments : ∀ steps count : Nat,
    Consumes (arguments steps count) (YieldsArguments count)
  | 0, _ => consumes_fail _
  | steps + 1, count => by
    rw [arguments]
    refine (consumes_noteExcess count _).bind fun _ => ?_
    refine (yields_expression steps).bind fun argument => ?_
    refine consumes_accept (fun comma hcomma => ?_) ?_
    · have hkind := TokenKind.eq_of_sameForm hcomma (by simp [TokenKind.bare])
      refine (yields_arguments steps (count + 1)).bind fun args => consumes_pure ?_
      rintro v hv u hu _ ⟨rfl, -⟩
      simpa using hv.cons hu hkind
    · refine consumes_pure ?_
      rintro u hu _ ⟨rfl, hcount⟩
      rw [List.append_nil]
      exact ⟨hu.shown, ⟨hu.onLadder, trivial⟩, nofun, hcount⟩

theorem yields_primary : ∀ steps : Nat, Consumes (primary steps) (Yields 9)
  | 0 => consumes_fail _
  | steps + 1 => by
    rw [primary]
    refine consumes_peek fun t => ?_
    have hconstant (value : Literal) (h : t.kind = value.kind) :
        ConsumesAt t (do skip; return .literal value) (Yields 9) := by
      refine consumesAt_shown (by rw [h]; cases value <;> nofun) (consumes_pure ?_)
      exact ⟨rfl, shown_single h, trivial, Nat.le_refl _⟩
    split
    case h_1 h => exact hconstant .false h
    case h_2 h => exact hconstant .true h
    case h_3 h => exact hconstant .nil h
    case h_4 value h => exact hconstant (.number value) h
    case h_5 value h => exact hconstant (.string value) h
    case h_6 h =>
      refine consumesAt_skip (by rw [h]; nofun) ?_
      refine (consumes_expect_kind (by simp [TokenKind.bare])).bind fun dot => ?_
      refine consumes_expectName.bind fun method => consumes_freshId.after_none fun id => ?_
      refine consumes_pure ?_
      rintro v hv _ ⟨rfl, hdot⟩
      rw [List.append_nil]
      exact ⟨.cons ⟨h, rfl⟩ (.cons hdot hv), trivial, Nat.le_refl _⟩
    case h_7 h =>
      refine consumesAt_shown (by rw [h]; nofun) (consumes_freshId.after_none fun id => ?_)
      exact consumes_pure ⟨rfl, shown_single ⟨h, rfl⟩, trivial, Nat.le_refl _⟩
    case h_8 h =>
      refine consumesAt_shown (by rw [h]; nofun) (consumes_freshId.after_none fun id => ?_)
      exact consumes_pure ⟨rfl, shown_single ⟨h, rfl, rfl⟩, trivial, Nat.le_refl _⟩
    case h_9 h =>
      refine consumesAt_skip (by rw [h]; nofun) ?_
      refine (yields_expression steps).bind fun inner => ?_
      refine (consumes_expect_kind (by simp [TokenKind.bare])).bind fun closing => consumes_pure ?_
      rintro _ ⟨rfl, hclosing⟩ u hu
      rw [List.append_nil]
      exact ⟨.cons h (hu.shown.append (shown_single hclosing)), hu.onLadder, Nat.le_refl _⟩
    case h_10 => exact (consumes_fail _).at t

end

theorem yields_wholeExpression (steps : Nat) : Consumes (wholeExpression steps) (Yields 0) := by
  refine (yields_expression steps).bind fun value => consumes_isAtEnd.after_none fun atEnd => ?_
  split
  · exact consumes_pure fun u hu => by rwa [List.append_nil]
  · exact consumes_fail _

end Parser

end Treewalk
