import Treewalk.Proofs.Syntax.Derivation

/-!
# Derivable expressions are recognized

**A parser reads what the grammar derives without an error, and stops behind it.**  It sees one
token ahead, so this depends on the token that follows: it must not be one that goes on with what
was read.  Behind an expression there may only be a token that closes it; behind an operand, the
operators of looser levels and the sign of an assignment as well.

Every call spends a step.  The steps that are enough for a part are sixteen for each of its tokens,
and a few more, by the number of calls through which the part reaches its first token.
-/

namespace Treewalk

open Grammar

namespace Parser

/-- In front of the tokens and what follows them, the parser reads these tokens without an error,
and its result fits. -/
def Accepts {α : Type} (p : Parser α) (u rest : List Token) (P : α → Prop) : Prop :=
  ∀ c : Cursor, c.rest = u ++ rest → ∃ a later,
    p c = .ok a later ∧ later.rest = rest ∧ later.errors = c.errors ∧ P a

/-- In front of the tokens and what follows them, the parser reads these tokens without an
error. -/
def Takes {α : Type} (p : Parser α) (u rest : List Token) : Prop :=
  Accepts p u rest fun _ => True

variable {α β : Type} {p : Parser α} {q : Parser β} {f : α → Parser β} {P : α → Prop}
variable {Q : β → Prop} {u v rest : List Token} {t : Token} {kind : TokenKind}

/-! ### Parsers in sequence -/

theorem accepts_pure {a : α} (h : P a) : Accepts (pure a) [] rest P :=
  fun c hc => ⟨a, c, rfl, hc, rfl, h⟩

theorem takes_pure (a : α) : Takes (pure a) [] rest :=
  accepts_pure trivial

theorem Accepts.bind (hp : Accepts p u (v ++ rest) P)
    (hf : ∀ a, P a → Accepts (f a) v rest Q) : Accepts (p >>= f) (u ++ v) rest Q := by
  intro c hc
  obtain ⟨a, middle, hrun, hrest, herrors, ha⟩ := hp c (by rw [hc, List.append_assoc])
  obtain ⟨b, later, hrun', hrest', herrors', hb⟩ := hf a ha middle hrest
  exact ⟨b, later, by rw [bind_of_ok hrun]; exact hrun', hrest', herrors'.trans herrors, hb⟩

theorem Accepts.takes (h : Accepts p u rest P) : Takes p u rest := fun c hc =>
  have ⟨a, later, hrun, hrest, herrors, _⟩ := h c hc
  ⟨a, later, hrun, hrest, herrors, trivial⟩

theorem Takes.seq (hp : Takes p u (v ++ rest)) (hf : ∀ a, Accepts (f a) v rest Q) :
    Accepts (p >>= f) (u ++ v) rest Q :=
  Accepts.bind hp fun a _ => hf a

/-- What comes behind the first part reads no token. -/
theorem Accepts.bind_nil (hp : Accepts p u rest P) (hf : ∀ a, P a → Accepts (f a) [] rest Q) :
    Accepts (p >>= f) u rest Q := by
  rw [← List.append_nil u]
  exact Accepts.bind hp hf

theorem Takes.map {r : α → β} (hp : Takes p u rest) :
    Takes (do let a ← p; return r a) u rest :=
  Accepts.bind_nil hp fun a _ => takes_pure (r a)

/-- What is known of the result of the first part, when it reads no token. -/
theorem accepts_after {a : α} (hp : Accepts p [] (u ++ rest) (· = a))
    (hf : Accepts (f a) u rest Q) : Accepts (p >>= f) u rest Q :=
  Accepts.bind hp fun _ h => h ▸ hf

/-- What is known of the result of the first part, when it reads one token. -/
theorem accepts_after_token {a : α} (hp : Accepts p [t] (v ++ rest) (· = a))
    (hf : Accepts (f a) v rest Q) : Accepts (p >>= f) (t :: v) rest Q :=
  Accepts.bind hp fun _ h => h ▸ hf

/-! ### Single tokens -/

theorem accepts_present {f : Option Token → Parser β} (ht : t.kind.sameForm kind = true)
    (hf : Accepts (f (some t)) v rest Q) : Accepts (accept kind >>= f) (t :: v) rest Q :=
  accepts_after_token (fun _ hc => ⟨_, _, accept_of_sameForm hc ht, rfl, rfl, rfl⟩) hf

theorem accepts_absent {f : Option Token → Parser β}
    (hnext : ∀ t ∈ (u ++ rest).head?, t.kind.sameForm kind = false)
    (hf : Accepts (f none) u rest Q) : Accepts (accept kind >>= f) u rest Q := by
  refine accepts_after (fun c hc => ⟨_, c, ?_, hc, rfl, rfl⟩) hf
  rw [List.nil_append] at hc
  rw [← hc] at hnext
  rcases hrest : c.rest with _ | ⟨t, others⟩
  · exact accept_of_nil hrest kind
  · rw [hrest] at hnext
    exact accept_of_not_sameForm hrest (by rw [hnext t rfl]; nofun)

theorem accepts_expect {f : Token → Parser β} {what : Wanted} (ht : t.kind.sameForm kind = true)
    (hf : Accepts (f t) v rest Q) : Accepts (expect kind what >>= f) (t :: v) rest Q := by
  refine accepts_after_token (a := t) ?_ hf
  exact accepts_present ht (accepts_pure rfl)

theorem accepts_name {what : Wanted} (ht : t.kind.sameForm .identifier = true) :
    Accepts (expectName what) [t] rest (· = ⟨t.lexeme, t.line⟩) :=
  accepts_expect ht (accepts_pure rfl)

theorem accepts_expectName {f : Name → Parser β} {what : Wanted}
    (ht : t.kind.sameForm .identifier = true) (hf : ∀ name, Accepts (f name) v rest Q) :
    Accepts (expectName what >>= f) (t :: v) rest Q :=
  accepts_after_token (accepts_name ht) (hf _)

theorem accepts_freshId {f : Nat → Parser β} (hf : ∀ id, Accepts (f id) u rest Q) :
    Accepts (freshId >>= f) u rest Q :=
  Accepts.bind (u := []) (P := fun _ => True)
    (fun c hc => ⟨c.nextId, _, rfl, hc, rfl, trivial⟩) fun id _ => hf id

theorem accepts_isNext {f : Bool → Parser β}
    (hf : Accepts (f ((u ++ rest).head?.any fun t => t.kind.sameForm kind)) u rest Q) :
    Accepts (isNext kind >>= f) u rest Q :=
  accepts_after (fun c hc => ⟨_, c, rfl, hc, rfl, by rw [hc]; rfl⟩) hf

theorem accepts_isAtEnd {f : Bool → Parser β}
    (hf : Accepts (f (u ++ rest).isEmpty) u rest Q) : Accepts (isAtEnd >>= f) u rest Q :=
  accepts_after (fun c hc => ⟨_, c, rfl, hc, rfl, by rw [hc]; rfl⟩) hf

theorem accepts_peek {f : Token → Parser β} (hf : Accepts (f t) (t :: v) rest Q) :
    Accepts (peek >>= f) (t :: v) rest Q :=
  accepts_after (fun c hc => ⟨_, c, rfl, hc, rfl, by
    show c.rest.headD c.stop = t
    rw [hc]
    rfl⟩) hf

theorem accepts_skip (hq : Accepts q v rest Q) : Accepts (do skip; q) (t :: v) rest Q := by
  refine accepts_after_token (a := PUnit.unit) (fun c hc => ⟨_, _, rfl, ?_, rfl, rfl⟩) hq
  rw [hc]
  rfl

theorem accepts_noteExcess {count : Nat} {fault : SyntaxFault} {f : PUnit → Parser β}
    (hcount : count < maxArity) (hf : Accepts (f ⟨⟩) u rest Q) :
    Accepts (noteExcess count fault >>= f) u rest Q := by
  unfold noteExcess
  rw [if_neg (Nat.not_le_of_lt hcount)]
  exact accepts_after (accepts_pure rfl) hf

theorem accepts_operator {level : Level} {join : Expr → Expr → Expr}
    {f : Option (Expr → Expr → Expr) → Parser β} (hjoin : level.join? t = some join)
    (hf : Accepts (f (some join)) v rest Q) : Accepts (acceptJoin level >>= f) (t :: v) rest Q :=
  accepts_after_token (fun c hc => ⟨_, { c with rest := v ++ rest },
    by simp [acceptJoin, hc, hjoin], rfl, rfl, rfl⟩) hf

theorem accepts_no_operator {level : Level} {f : Option (Expr → Expr → Expr) → Parser β}
    (hnext : ∀ t ∈ (u ++ rest).head?, level.join? t = none)
    (hf : Accepts (f none) u rest Q) : Accepts (acceptJoin level >>= f) u rest Q := by
  refine accepts_after (fun c hc => ⟨_, c, ?_, hc, rfl, rfl⟩) hf
  rw [List.nil_append] at hc
  rw [← hc] at hnext
  rcases hrest : c.rest with _ | ⟨t, others⟩
  · simp [acceptJoin, hrest]
  · rw [hrest] at hnext
    simp [acceptJoin, hrest, hnext t rfl]

/-! ### What may follow -/

/-- The kinds of tokens that stand behind expressions. -/
def closers : List TokenKind :=
  [.semicolon, .rightParen, .comma]

/-- The next token is of the form of `kind`. -/
def StartsWith (kind : TokenKind) (rest : List Token) : Prop :=
  rest.head?.any (fun t => t.kind.sameForm kind) = true

/-- No token, or one that closes an expression. -/
def Closed (rest : List Token) : Prop :=
  ∀ t ∈ rest.head?, oneOfKinds closers t.kind = true

/-- The next token goes on with no operand, and joins none on one of the levels. -/
def Ended (levels : List Level) (rest : List Token) : Prop :=
  ∀ t ∈ rest.head?, (∀ level ∈ levels, level.join? t = none)
    ∧ t.kind.sameForm .leftParen = false ∧ t.kind.sameForm .dot = false

theorem StartsWith.ne {other : TokenKind} (h : StartsWith kind rest)
    (hother : oneOfKinds [kind] other = false) :
    ∀ t ∈ rest.head?, t.kind.sameForm other = false := by
  intro t ht
  unfold StartsWith at h
  rw [Option.mem_def.mp ht] at h
  have hkind : oneOfKinds [kind] t.kind = true := by simpa [oneOfKinds] using h
  exact sameForm_eq_false hkind hother

/-- A token is of one form only. -/
theorem next_ne {other : TokenKind} (ht : t.kind.sameForm kind = true)
    (hother : oneOfKinds [kind] other = false) :
    ∀ t' ∈ (t :: rest).head?, t'.kind.sameForm other = false :=
  have h : StartsWith kind (t :: rest) := ht
  h.ne hother

theorem StartsWith.closed (h : StartsWith kind rest) (hkind : oneOfKinds closers kind = true) :
    Closed rest := by
  intro t ht
  unfold StartsWith at h
  rw [Option.mem_def.mp ht] at h
  obtain ⟨closer, hcloser, hform⟩ := List.any_eq_true.mp hkind
  exact List.any_eq_true.mpr ⟨closer, hcloser, TokenKind.sameForm_trans h hform⟩

theorem closed_nil : Closed [] :=
  fun _ h => by cases h

theorem closed_cons (ht : t.kind.sameForm kind = true) (hkind : oneOfKinds closers kind = true) :
    Closed (t :: rest) :=
  have h : StartsWith kind (t :: rest) := ht
  h.closed hkind

theorem Closed.ne (h : Closed rest) (hkind : oneOfKinds closers kind = false) :
    ∀ t ∈ rest.head?, t.kind.sameForm kind = false :=
  fun t ht => sameForm_eq_false (h t ht) hkind

/-- Tokens that close an expression, and the sign of an assignment, join no operands. -/
theorem ended_of_kinds
    (h : ∀ t ∈ rest.head?, oneOfKinds (.equal :: closers) t.kind = true) :
    Ended Level.all rest := by
  intro t ht
  have hkind := h t ht
  refine ⟨fun level _ => ?_, sameForm_eq_false hkind rfl, sameForm_eq_false hkind rfl⟩
  rcases t with ⟨kind, lexeme, line⟩
  cases kind <;> first
    | (cases hkind; done)
    | (cases level <;> rfl)

theorem Closed.ended (h : Closed rest) : Ended Level.all rest :=
  ended_of_kinds fun t ht => by
    rw [oneOfKinds, List.any_cons, Bool.or_eq_true]
    exact .inr (h t ht)

theorem Ended.tail {level : Level} {tighter : List Level} (h : Ended (level :: tighter) rest) :
    Ended tighter rest := fun t ht =>
  ⟨fun other hother => (h t ht).1 other (List.mem_cons_of_mem _ hother), (h t ht).2⟩

/-- An operator is one of its own level only. -/
theorem ended_of_operator {level : Level} {tighter : List Level} {join : Expr → Expr → Expr}
    (hlevels : level :: tighter <:+ Level.all) (hjoin : level.join? t = some join) :
    Ended tighter (t :: rest) := by
  obtain rfl := tighter_of_suffix hlevels
  rintro ⟨kind, lexeme, line⟩ ht
  cases ht
  cases level <;> cases kind <;> first
    | (cases hjoin; done)
    | exact ⟨by simp [Level.tighter, Level.join?], rfl, rfl⟩

/-- What follows the first operand of a chain. -/
theorem ended_of_chain {level : Level} {tighter : List Level} {operand : Form}
    (hlevels : level :: tighter <:+ Level.all)
    (hu : Derives maxArity (.many (.sequence [level.operator, operand])) u)
    (hrest : Ended (level :: tighter) rest) : Ended tighter (u ++ rest) := by
  rcases derives_many_iff.mp hu with rfl | ⟨v, w, rfl, hv, -⟩
  · exact hrest.tail
  · obtain ⟨x, y, rfl, hx, -⟩ := derives_pair_iff.mp hv
    obtain ⟨t, join, rfl, hjoin⟩ := derives_operator_iff.mp hx
    exact ended_of_operator hlevels hjoin

/-! ### Lists -/

/-- What may be left out in front of a token of the form of `kind`. -/
theorem takes_unless {a : α} {part : Part} (hu : Derives maxArity (.optional (.part part)) u)
    (hkind : oneOfKinds part.starts kind = false) (hrest : StartsWith kind rest)
    (hp : Derives maxArity (.part part) u → Takes p u rest) :
    Takes (do if ← isNext kind then return a else p) u rest := by
  apply accepts_isNext
  rcases derives_optional_iff.mp hu with hpart | rfl
  · obtain ⟨t, v, rfl, hstart⟩ := hpart.part_starts
    have hnext : t.kind.sameForm kind = false := sameForm_eq_false hstart hkind
    rw [if_neg (by simp [hnext])]
    exact hp hpart
  · have hnext : rest.head?.any (fun t => t.kind.sameForm kind) = true := hrest
    rw [List.nil_append, if_pos hnext]
    exact takes_pure a

theorem takes_listBefore {items : Parser (List α)} {part : Part}
    (hu : Derives maxArity (.optional (.part part)) u)
    (hkind : oneOfKinds part.starts kind = false) (hrest : StartsWith kind rest)
    (hitems : Derives maxArity (.part part) u → Takes items u rest) :
    Takes (listBefore kind items) u rest :=
  takes_unless hu hkind hrest hitems

theorem takes_entries {entry : Form} {item : Parser α} {more : Parser (List α)} {count : Nat}
    {fault : SyntaxFault} (hu : Entries entry count u)
    (hrest : StartsWith .rightParen rest)
    (hitem : ∀ v w, u = v ++ w → Derives maxArity entry v → Closed (w ++ rest) →
      Takes item v (w ++ rest))
    (hmore : ∀ v comma w, u = v ++ comma :: w → Entries entry (count + 1) w → Takes more w rest) :
    Takes (do
      noteExcess count fault
      let a ← item
      match ← accept .comma with
      | some _ => return a :: (← more)
      | none => return [a]) u rest := by
  obtain ⟨others, v, w, rfl, hlimit, hv, hw⟩ := hu
  apply accepts_noteExcess (by omega)
  rcases others with _ | others
  · obtain rfl := derives_times_zero_iff.mp hw
    apply Takes.seq (hitem v [] rfl hv (hrest.closed rfl))
    intro a
    exact accepts_absent (hrest.ne rfl) (takes_pure [a])
  · obtain ⟨x, y, rfl, hx, hy⟩ := derives_times_succ_iff.mp hw
    obtain ⟨comma, z, rfl, hcomma, hz⟩ := derives_sequence_token_iff.mp hx
    have hnext := derives_single_iff.mp hz
    apply Takes.seq (hitem v _ rfl hv (closed_cons hcomma rfl))
    intro a
    apply accepts_present hcomma
    exact (hmore v comma (z ++ y) rfl ⟨others, z, y, rfl, by omega, hnext, hy⟩).map

/-! ### Expressions -/

/-- The tokens of an operand, with what is expected of its tree: where a target was derived, the
tree is to be one that can be assigned. -/
inductive Operand : List Level → List Token → (Expr → Prop) → Prop where
  | any {levels : List Level} {u : List Token}
      (h : Derives maxArity (.part (joinedPart levels)) u) : Operand levels u fun _ => True
  | target {levels : List Level} {u : List Token} (h : Derives maxArity Grammar.target u) :
      Operand levels u fun e => e.isTarget = true

theorem accepts_joinedFrom_end {steps : Nat} {level : Level} {tighter : List Level} {left : Expr}
    {P : Expr → Prop} (hsteps : 1 ≤ steps) (hrest : Ended (level :: tighter) rest) (h : P left) :
    Accepts (joinedFrom steps level tighter left) [] rest P := by
  obtain ⟨steps, rfl⟩ := Nat.exists_eq_add_of_le' hsteps
  rw [joinedFrom]
  exact accepts_no_operator (fun t ht => (hrest t ht).1 level List.mem_cons_self) (accepts_pure h)

theorem accepts_calls_end {steps : Nat} {left : Expr} {P : Expr → Prop} (hsteps : 1 ≤ steps)
    (hrest : Ended [] rest) (h : P left) : Accepts (calls steps left) [] rest P := by
  obtain ⟨steps, rfl⟩ := Nat.exists_eq_add_of_le' hsteps
  rw [calls]
  exact accepts_absent (fun t ht => (hrest t ht).2.1)
    (accepts_absent (fun t ht => (hrest t ht).2.2) (accepts_pure h))

theorem accepts_calls_property {steps : Nat} {left : Expr} {dot name : Token}
    (hdot : dot.kind.sameForm .dot = true) (hname : name.kind.sameForm .identifier = true)
    (hsteps : 2 ≤ steps) (hrest : Ended [] rest) :
    Accepts (calls steps left) [dot, name] rest fun e => e.isTarget = true := by
  obtain ⟨steps, rfl⟩ := Nat.exists_eq_add_of_le' hsteps
  rw [calls]
  apply accepts_absent (next_ne hdot rfl)
  apply accepts_present hdot
  exact accepts_expectName hname fun _ => accepts_calls_end (by omega) hrest rfl

theorem eq_number_of_sameForm {value : Float} (h : kind.sameForm (.number value) = true) :
    ∃ value', kind = .number value' := by
  cases kind <;> first | exact ⟨_, rfl⟩ | cases h

theorem eq_string_of_sameForm {value : String} (h : kind.sameForm (.string value) = true) :
    ∃ value', kind = .string value' := by
  cases kind <;> first | exact ⟨_, rfl⟩ | cases h

theorem accepts_primary_name {steps : Nat} {name : Token}
    (hname : name.kind.sameForm .identifier = true) (hsteps : 1 ≤ steps) :
    Accepts (primary steps) [name] rest fun e => e.isTarget = true := by
  obtain ⟨steps, rfl⟩ := Nat.exists_eq_add_of_le' hsteps
  have hkind : name.kind = .identifier :=
    TokenKind.eq_of_sameForm hname (by simp [TokenKind.bare])
  rw [primary]
  apply accepts_peek
  simp only [hkind]
  exact accepts_skip (accepts_freshId fun _ => accepts_pure rfl)

mutual

theorem takes_expression : ∀ (steps : Nat) (u rest : List Token),
    Derives maxArity (.part .expression) u → Closed rest → 16 * u.length + 10 ≤ steps →
    Takes (expression steps) u rest
  | 0, _, _, _, _, hsteps => by omega
  | steps + 1, u, rest, hu, hrest, hsteps => by
    have hall : Level.all.length = 6 := rfl
    rw [expression]
    rcases derives_expression_iff.mp hu with ⟨x, sign, z, rfl, hx, hsign, hvalue⟩ | hu
    · simp only [List.length_append, List.length_cons] at hsteps
      have hended : Ended Level.all (sign :: z ++ rest) := ended_of_kinds fun t ht => by
        cases ht
        simp [oneOfKinds, hsign]
      apply Accepts.bind (accepts_joined steps Level.all x _ _ (List.suffix_refl _) (.target hx)
        hended (by omega))
      intro target htarget
      apply accepts_present hsign
      apply Accepts.bind_nil (takes_expression steps z rest hvalue hrest (by omega))
      intro value _
      cases target
      case «variable» name id => exact accepts_freshId fun _ => takes_pure _
      case get object name => exact takes_pure _
      all_goals cases htarget
    · apply Accepts.bind_nil (accepts_joined steps Level.all u rest _ (List.suffix_refl _) (.any hu)
        hrest.ended (by omega))
      intro target _
      exact accepts_absent (hrest.ne rfl) (takes_pure target)

theorem accepts_joined : ∀ (steps : Nat) (levels : List Level) (u rest : List Token)
    (P : Expr → Prop), levels <:+ Level.all → Operand levels u P → Ended levels rest →
    16 * u.length + levels.length + 3 ≤ steps → Accepts (joined steps levels) u rest P
  | 0, _, _, _, _, _, _, _, hsteps => by omega
  | steps + 1, [], u, rest, P, _, hu, hrest, hsteps => by
    rw [joined]
    exact accepts_unary steps u rest P hu hrest (by simp at hsteps; omega)
  | steps + 1, level :: tighter, u, rest, P, hlevels, hu, hrest, hsteps => by
    have htighter : tighter <:+ Level.all := (List.suffix_cons _ _).trans hlevels
    rw [List.length_cons] at hsteps
    rw [joined]
    cases hu with
    | any hu =>
      rw [joinedPart, derives_part_iff, rule_of_level hlevels] at hu
      obtain ⟨v, w, rfl, hv, hw⟩ := derives_pair_iff.mp hu
      rw [List.length_append] at hsteps
      apply Accepts.bind (accepts_joined steps tighter v _ _ htighter (.any hv)
        (ended_of_chain hlevels hw hrest) (by omega))
      intro left _
      exact takes_joinedFrom steps level tighter left w rest hlevels hw hrest (by omega)
    | target hu =>
      apply Accepts.bind_nil (accepts_joined steps tighter u rest _ htighter (.target hu) hrest.tail
        (by omega))
      intro left hleft
      exact accepts_joinedFrom_end (by omega) hrest hleft

theorem takes_joinedFrom : ∀ (steps : Nat) (level : Level) (tighter : List Level) (left : Expr)
    (u rest : List Token), level :: tighter <:+ Level.all →
    Derives maxArity (.many (.sequence [level.operator, .part (joinedPart tighter)])) u →
    Ended (level :: tighter) rest → 16 * u.length + 1 ≤ steps →
    Takes (joinedFrom steps level tighter left) u rest
  | 0, _, _, _, _, _, _, _, _, hsteps => by omega
  | steps + 1, level, tighter, left, u, rest, hlevels, hu, hrest, hsteps => by
    rcases derives_many_iff.mp hu with rfl | ⟨v, w, rfl, hv, hw⟩
    · exact accepts_joinedFrom_end (by omega) hrest trivial
    · obtain ⟨x, y, rfl, hx, hy⟩ := derives_pair_iff.mp hv
      obtain ⟨t, join, rfl, hjoin⟩ := derives_operator_iff.mp hx
      have hlength := hlevels.length_le
      simp only [List.length_append, List.length_cons, List.length_nil, Level.all] at hsteps hlength
      have htighter : tighter <:+ Level.all := (List.suffix_cons _ _).trans hlevels
      rw [joinedFrom]
      apply accepts_operator hjoin
      apply Takes.seq (accepts_joined steps tighter y _ _ htighter (.any hy) (ended_of_chain hlevels
        hw hrest) (by omega)).takes
      intro right
      exact takes_joinedFrom steps level tighter (join left right) w rest hlevels hw hrest
        (by omega)

theorem accepts_unary : ∀ (steps : Nat) (u rest : List Token) (P : Expr → Prop),
    Operand [] u P → Ended [] rest → 16 * u.length + 2 ≤ steps → Accepts (unary steps) u rest P
  | 0, _, _, _, _, _, hsteps => by omega
  | steps + 1, u, rest, P, hu, hrest, hsteps => by
    -- Behind a primary, the operators in front of an operand have been looked for in vain.
    have hprimary {x y : List Token} {R : Expr → Prop} (hx : Derives maxArity (.part .primary) x)
        (h : Accepts (do let e ← primary steps; calls steps e) (x ++ y) rest R) :
        Accepts (unary (steps + 1)) (x ++ y) rest R := by
      have hnext (kind : TokenKind) (hkind : oneOfKinds primaryStarts kind = false) :
          ∀ t ∈ (x ++ y ++ rest).head?, t.kind.sameForm kind = false := by
        rw [List.append_assoc]
        exact hx.head_ne hkind (y ++ rest)
      rw [unary]
      exact accepts_absent (hnext .bang rfl) (accepts_absent (hnext .minus rfl) h)
    cases hu with
    | any hu =>
      rcases derives_unary_iff.mp hu with ⟨t, v, rfl, ht | ht, hv⟩ | hcall
      · rw [List.length_cons] at hsteps
        rw [unary]
        exact accepts_present ht (accepts_unary steps v rest _ (.any hv) hrest (by omega)).takes.map
      · rw [List.length_cons] at hsteps
        rw [unary]
        apply accepts_absent (next_ne ht rfl)
        apply accepts_present ht
        exact (accepts_unary steps v rest _ (.any hv) hrest (by omega)).takes.map
      · obtain ⟨x, y, rfl, hx, hy⟩ := derives_call_iff.mp hcall
        rw [List.length_append] at hsteps
        refine hprimary hx (Takes.seq (takes_primary steps x _ hx (by omega)) fun e => ?_)
        rw [← List.append_nil y]
        exact accepts_calls steps e y [] rest _ hy (by simp; omega) fun steps' left' hsteps' =>
          accepts_calls_end (by omega) hrest trivial
    | target hu =>
      rcases derives_target_iff.mp hu with ⟨t, rfl, ht⟩ | ⟨v, dot, name, rfl, hv, hdot, hname⟩
      · have hx : Derives maxArity (.part .primary) [t] :=
          derives_operand (by simp [operandKinds]) ht
        simp only [List.length_cons, List.length_nil] at hsteps
        exact hprimary (y := []) hx (Accepts.bind (accepts_primary_name ht (by omega)) fun e he =>
          accepts_calls_end (by omega) hrest he)
      · obtain ⟨x, y, rfl, hx, hy⟩ := derives_call_iff.mp hv
        simp only [List.length_append, List.length_cons, List.length_nil] at hsteps
        rw [List.append_assoc]
        refine hprimary hx (Takes.seq (takes_primary steps x _ hx (by omega)) fun e => ?_)
        exact accepts_calls steps e y [dot, name] rest _ hy (by simp; omega)
          fun steps' left' hsteps' =>
            accepts_calls_property hdot hname (by simp at hsteps'; omega) hrest

theorem accepts_calls : ∀ (steps : Nat) (left : Expr) (u v rest : List Token) (P : Expr → Prop),
    Derives maxArity (.many suffix) u → 16 * (u.length + v.length) + 1 ≤ steps →
    (∀ steps' left', 16 * v.length + 1 ≤ steps' → Accepts (calls steps' left') v rest P) →
    Accepts (calls steps left) (u ++ v) rest P
  | 0, _, _, _, _, _, _, hsteps, _ => by omega
  | steps + 1, left, u, v, rest, P, hu, hsteps, hv => by
    rcases derives_many_iff.mp hu with rfl | ⟨x, y, rfl, hx, hy⟩
    · exact hv (steps + 1) left (by simp at hsteps; omega)
    rw [calls]
    rcases derives_suffix_iff.mp hx with ⟨opening, z, closing, rfl, hopening, hz, hclosing⟩
      | ⟨dot, name, rfl, hdot, hname⟩
    · simp only [List.length_append, List.length_cons, List.length_nil] at hsteps
      have hshape : (opening :: (z ++ [closing])) ++ y ++ v
          = opening :: (z ++ closing :: (y ++ v)) := by simp
      rw [hshape]
      apply accepts_present hopening
      refine Takes.seq (takes_listBefore hz rfl hclosing fun harguments => ?_) fun args => ?_
      · have hentries := entries_zero_iff.mpr (derives_part_iff.mp harguments)
        exact takes_arguments steps 0 _ _ hentries hclosing (by omega)
      · apply accepts_expect hclosing
        exact accepts_calls steps _ y v rest P hy (by omega) hv
    · simp only [List.length_append, List.length_cons, List.length_nil] at hsteps
      apply accepts_absent (next_ne hdot rfl)
      apply accepts_present hdot
      exact accepts_expectName hname fun _ => accepts_calls steps _ y v rest P hy (by omega) hv

theorem takes_arguments : ∀ (steps count : Nat) (u rest : List Token),
    Entries (.part .expression) count u → StartsWith .rightParen rest →
    16 * u.length + 11 ≤ steps → Takes (arguments steps count) u rest
  | 0, _, _, _, _, _, hsteps => by omega
  | steps + 1, count, u, rest, hu, hrest, hsteps => by
    rw [arguments]
    refine takes_entries hu hrest (fun v w huv hv hclosed => ?_) fun v comma w huv hw => ?_
    · subst huv
      rw [List.length_append] at hsteps
      exact takes_expression steps v _ hv hclosed (by omega)
    · subst huv
      simp only [List.length_append, List.length_cons] at hsteps
      exact takes_arguments steps (count + 1) w rest hw hrest (by omega)

theorem takes_primary : ∀ (steps : Nat) (u rest : List Token),
    Derives maxArity (.part .primary) u → 16 * u.length + 1 ≤ steps →
    Takes (primary steps) u rest
  | 0, _, _, _, hsteps => by omega
  | steps + 1, u, rest, hu, hsteps => by
    rw [primary]
    rcases derives_primary_iff.mp hu with ⟨kind, hkind, hu⟩ | hu | hu
    · obtain ⟨t, rfl, ht⟩ := derives_token_iff.mp hu
      have hnumbered {r : Nat → Expr} : Takes (do skip; return r (← freshId)) [t] rest :=
        accepts_skip (accepts_freshId fun _ => takes_pure _)
      apply accepts_peek
      simp only [operandKinds, List.mem_cons, List.not_mem_nil, or_false] at hkind
      rcases hkind with rfl | rfl | rfl | rfl | rfl | rfl | rfl
      · obtain ⟨value, hvalue⟩ := eq_number_of_sameForm ht
        simp only [hvalue]
        exact accepts_skip (takes_pure _)
      · obtain ⟨value, hvalue⟩ := eq_string_of_sameForm ht
        simp only [hvalue]
        exact accepts_skip (takes_pure _)
      all_goals
        have hkind := TokenKind.eq_of_sameForm ht (by simp [TokenKind.bare])
        simp only [hkind]
      · exact accepts_skip (takes_pure _)
      · exact accepts_skip (takes_pure _)
      · exact accepts_skip (takes_pure _)
      · exact hnumbered
      · exact hnumbered
    · obtain ⟨opening, v, rfl, hopening, hv⟩ := derives_sequence_token_iff.mp hu
      obtain ⟨w, x, rfl, hw, hx⟩ := derives_pair_iff.mp hv
      obtain ⟨closing, rfl, hclosing⟩ := derives_token_iff.mp hx
      simp only [List.length_append, List.length_cons, List.length_nil] at hsteps
      have hkind : opening.kind = .leftParen :=
        TokenKind.eq_of_sameForm hopening (by simp [TokenKind.bare])
      apply accepts_peek
      simp only [hkind]
      apply accepts_skip
      apply Takes.seq (takes_expression steps w _ hw (closed_cons hclosing rfl) (by omega))
      intro inner
      exact accepts_expect hclosing (takes_pure _)
    · obtain ⟨keyword, v, rfl, hkeyword, hv⟩ := derives_sequence_token_iff.mp hu
      obtain ⟨dot, w, rfl, hdot, hw⟩ := derives_sequence_token_iff.mp hv
      obtain ⟨name, rfl, hname⟩ := derives_token_iff.mp (derives_single_iff.mp hw)
      have hkind : keyword.kind = .kwSuper :=
        TokenKind.eq_of_sameForm hkeyword (by simp [TokenKind.bare])
      apply accepts_peek
      simp only [hkind]
      apply accepts_skip
      apply accepts_expect hdot
      apply accepts_expectName hname
      intro method
      exact accepts_freshId fun _ => takes_pure _

end

end Parser

end Treewalk
