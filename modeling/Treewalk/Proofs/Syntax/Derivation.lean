import Treewalk.Proofs.Syntax.Continuation
import Treewalk.Proofs.Syntax.Grammar

/-!
# What a parser reads is derivable

**If a parser succeeds and notes no error, the grammar derives the tokens that it has read.**
Errors must be excluded: recovery skips tokens, and a list that is too long or a target that cannot
be assigned is noted and read all the same.

What a target is, the grammar says of tokens and the parser of the tree it got for them, so
operands are followed together with their trees.
-/

namespace Treewalk

open Grammar

/-- Is this the tree of something that can be assigned? -/
def Expr.isTarget : Expr → Bool
  | .variable _ _ | .get _ _ => true
  | _ => false

namespace Parser

/-! ### Levels of the grammar -/

/-- The part of the grammar that joins operands on the level. -/
def Level.part : Level → Part
  | .or => .logicOr
  | .and => .logicAnd
  | .equality => .equality
  | .comparison => .comparison
  | .term => .term
  | .factor => .factor

/-- The operators of the level. -/
def Level.operator : Level → Form
  | .or => .token .kwOr
  | .and => .token .kwAnd
  | .equality => .oneOf [.token .bangEqual, .token .equalEqual]
  | .comparison => .oneOf [.token .greater, .token .greaterEqual, .token .less, .token .lessEqual]
  | .term => .oneOf [.token .minus, .token .plus]
  | .factor => .oneOf [.token .slash, .token .star]

/-- What is joined on the first of the levels or a tighter one. -/
def joinedPart : List Level → Part
  | [] => .unary
  | level :: _ => level.part

/-- The levels that bind tighter. -/
def Level.tighter : Level → List Level
  | .or => [.and, .equality, .comparison, .term, .factor]
  | .and => [.equality, .comparison, .term, .factor]
  | .equality => [.comparison, .term, .factor]
  | .comparison => [.term, .factor]
  | .term => [.factor]
  | .factor => []

theorem tighter_of_suffix {level : Level} {tighter : List Level}
    (h : level :: tighter <:+ Level.all) : tighter = level.tighter := by
  simp only [Level.all, List.suffix_cons_iff, List.cons.injEq, List.suffix_nil] at h
  rcases h with ⟨rfl, rfl⟩ | ⟨rfl, rfl⟩ | ⟨rfl, rfl⟩ | ⟨rfl, rfl⟩ | ⟨rfl, rfl⟩ | ⟨rfl, rfl⟩ | h
  case inr.inr.inr.inr.inr.inr => cases h
  all_goals rfl

theorem rule_of_level {level : Level} {tighter : List Level}
    (h : level :: tighter <:+ Level.all) :
    level.part.rule = .chain (.part (joinedPart tighter)) level.operator := by
  rw [tighter_of_suffix h]
  cases level <;> rfl

theorem derives_operator_iff {limit : Nat} {level : Level} {u : List Token} :
    Derives limit level.operator u ↔ ∃ t join, u = [t] ∧ level.join? t = some join := by
  constructor
  · intro h
    have htoken : ∃ t, u = [t] ∧ oneOfKinds level.operator.starts t.kind = true := by
      cases level <;>
        simp only [Level.operator, derives_oneOf_iff, derives_token_iff, List.mem_cons,
          List.not_mem_nil, or_false, exists_eq_or_imp, exists_eq_left] at h <;>
        simpa [Level.operator, Form.oneOf, Form.starts, oneOfKinds, ← exists_or, ← and_or_left]
          using h
    obtain ⟨⟨kind, lexeme, line⟩, rfl, ht⟩ := htoken
    refine ⟨⟨kind, lexeme, line⟩, ?_⟩
    cases level <;> cases kind <;> first | exact ⟨_, rfl, rfl⟩ | cases ht
  · rintro ⟨⟨kind, lexeme, line⟩, join, rfl, h⟩
    cases level <;> cases kind <;> first
      | (cases h; done)
      | simp [Level.operator, derives_oneOf_iff, derives_token_iff, TokenKind.sameForm]

/-- If the parser succeeds and notes no error, its result and the tokens it has read fit. -/
def Consumes {α : Type} (p : Parser α) (P : α → List Token → Prop) : Prop :=
  ∀ c : Cursor, c.stop.isEnd = true → Gives p c fun a later =>
    later.errors = c.errors → ∃ u, c.rest = u ++ later.rest ∧ P a u

/-- What the parser reads without an error, the form derives. -/
def Follows {α : Type} (p : Parser α) (form : Form) : Prop :=
  Consumes p fun _ => Derives maxArity form

variable {α β : Type} {p : Parser α} {q : Parser β} {f : α → Parser β}
variable {P : α → List Token → Prop} {Q : β → List Token → Prop}
variable {form second other : Form}

/-! ### Parsers in sequence -/

theorem consumes_pure {a : α} (h : P a []) : Consumes (pure a) P :=
  fun _ _ => gives_pure fun _ => ⟨[], rfl, h⟩

theorem consumes_fail (fault : SyntaxFault) : Consumes (fail fault) P :=
  fun _ _ => gives_fail fault

theorem Consumes.imp {R : α → List Token → Prop} (hp : Consumes p P) (h : ∀ a u, P a u → R a u) :
    Consumes p R := fun c hc =>
  (hp c hc).imp fun a _ _ hread hquiet =>
    have ⟨u, hrest, hu⟩ := hread hquiet
    ⟨u, hrest, h a u hu⟩

theorem Consumes.bind (hp : Consumes p P)
    (hf : ∀ a, Consumes (f a) fun b v => ∀ u, P a u → Q b (u ++ v)) : Consumes (p >>= f) Q := by
  intro c hc
  refine (hp c hc).bind fun a c₁ h₁ hread => ?_
  refine (hf a c₁ (by rw [h₁.stop]; exact hc)).imp fun b c₂ h₂ hmore hquiet => ?_
  obtain ⟨hquiet₁, hquiet₂⟩ := quiet_parts hquiet h₁ h₂
  obtain ⟨u, hu, hP⟩ := hread hquiet₁
  obtain ⟨v, hv, hQ⟩ := hmore hquiet₂
  exact ⟨u ++ v, by rw [hu, hv, List.append_assoc], hQ u hP⟩

theorem Follows.seq (hp : Follows p form) (hf : ∀ a, Follows (f a) second) :
    Follows (p >>= f) (.seq form second) :=
  Consumes.bind hp fun a => (hf a).imp fun _ _ hv _ hu => .seq hu hv

theorem follows_pure (a : α) : Follows (pure a) .empty :=
  consumes_pure .empty

/-- A parser whose result is made into another one. -/
theorem Follows.map {r : α → β} (h : Follows p form) :
    Follows (do let a ← p; return r a) form :=
  Consumes.bind h fun a => consumes_pure fun u hu => by rwa [List.append_nil]

theorem Follows.left (h : Follows p form) : Follows p (.either form other) :=
  h.imp fun _ _ => .left

theorem Follows.right (h : Follows p other) : Follows p (.either form other) :=
  h.imp fun _ _ => .right

theorem Follows.part {part : Part} (h : Follows p part.rule) : Follows p (.part part) :=
  h.imp fun _ _ => .part

theorem Follows.present (h : Follows p form) : Follows p (.optional form) :=
  h.left

theorem follows_absent (a : α) : Follows (pure a) (.optional form) :=
  (follows_pure a).left.right

/-! ### Single tokens -/

/-- What only looks ahead or gives a number. -/
theorem Consumes.after_none (hp : Consumes p fun _ u => u = []) (hf : ∀ a, Consumes (f a) Q) :
    Consumes (p >>= f) Q :=
  hp.bind fun a => (hf a).imp fun _ _ hv u hu => by rwa [hu]

theorem consumes_isNext (kind : TokenKind) : Consumes (isNext kind) fun _ u => u = [] :=
  fun c _ => ⟨.refl c, fun _ => ⟨[], rfl, rfl⟩⟩

theorem consumes_isAtEnd : Consumes isAtEnd fun _ u => u = [] :=
  fun c _ => ⟨.refl c, fun _ => ⟨[], rfl, rfl⟩⟩

theorem consumes_freshId : Consumes freshId fun _ u => u = [] :=
  fun _ _ => ⟨⟨List.suffix_refl _, rfl, Nat.le_succ _, List.prefix_refl _⟩,
    fun _ => ⟨[], rfl, rfl⟩⟩

theorem consumes_of_noting (h : ∀ c, Gives p c fun _ later => later.errors ≠ c.errors) :
    Consumes p P := fun c _ =>
  (h c).imp fun _ _ _ hnoting hquiet => absurd hquiet hnoting

theorem consumes_noteExcess (count : Nat) (fault : SyntaxFault) :
    Consumes (noteExcess count fault) fun _ u => u = [] ∧ count < maxArity := by
  unfold noteExcess
  by_cases hcount : maxArity ≤ count
  · rw [if_pos hcount]
    refine consumes_of_noting fun c => gives_peek.bind fun t later _ hlater => ?_
    obtain ⟨rfl, -⟩ := hlater
    exact gives_note_noting t fault _
  · rw [if_neg hcount]
    exact consumes_pure ⟨rfl, Nat.lt_of_not_le hcount⟩

/-- A parser that goes on behind the form token. -/
theorem gives_after_token {c : Cursor} {t : Token} {rest : List Token} {a : α}
    (hrest : c.rest = t :: rest) (hp : p c = .ok a { c with rest })
    (hf : Gives (f a) { c with rest } fun b later =>
      later.errors = c.errors → ∃ u, rest = u ++ later.rest ∧ Q b (t :: u)) :
    Gives (p >>= f) c fun b later =>
      later.errors = c.errors → ∃ u, c.rest = u ++ later.rest ∧ Q b u := by
  have hread : Gives p c fun b later => b = a ∧ later = { c with rest } := by
    unfold Gives
    rw [hp]
    exact ⟨onward_cons hrest, rfl, rfl⟩
  refine hread.bind fun b later _ ⟨hb, hlater⟩ => ?_
  subst hb hlater
  refine hf.imp fun b last _ hlast hquiet => ?_
  obtain ⟨u, hu, hQ⟩ := hlast hquiet
  exact ⟨t :: u, by rw [hrest, hu]; rfl, hQ⟩

theorem gives_staying {c : Cursor} {a : α} {R : β → Cursor → Prop} (hp : p c = .ok a c)
    (hf : Gives (f a) c R) : Gives (p >>= f) c R := by
  unfold Gives
  rw [bind_of_ok hp]
  exact hf

theorem consumes_accept {kind : TokenKind} {f : Option Token → Parser β}
    (hsome : ∀ t, t.kind.sameForm kind = true → Consumes (f (some t)) fun b v => Q b (t :: v))
    (hnone : Consumes (f none) Q) : Consumes (accept kind >>= f) Q := by
  intro c hc
  rcases hrest : c.rest with _ | ⟨t, rest⟩
  · exact hrest ▸ gives_staying (accept_of_nil hrest kind) (hnone c hc)
  · by_cases hkind : t.kind.sameForm kind = true
    · exact hrest ▸ gives_after_token hrest (accept_of_sameForm hrest hkind)
        (hsome t hkind { c with rest } hc)
    · exact hrest ▸ gives_staying (accept_of_not_sameForm hrest hkind) (hnone c hc)

theorem consumes_acceptJoin {level : Level} {f : Option (Expr → Expr → Expr) → Parser β}
    (hsome : ∀ t join, level.join? t = some join →
      Consumes (f (some join)) fun b v => Q b (t :: v))
    (hnone : Consumes (f none) Q) : Consumes (acceptJoin level >>= f) Q := by
  intro c hc
  rcases hrest : c.rest with _ | ⟨t, rest⟩
  · exact hrest ▸ gives_staying (by simp [acceptJoin, hrest]) (hnone c hc)
  · rcases hjoin : level.join? t with _ | join
    · exact hrest ▸ gives_staying (by simp [acceptJoin, hrest, hjoin]) (hnone c hc)
    · exact hrest ▸ gives_after_token hrest (by simp [acceptJoin, hrest, hjoin])
        (hsome t join hjoin { c with rest } hc)

theorem follows_accept {kind : TokenKind} {f : Option Token → Parser β}
    (hsome : ∀ t, Follows (f (some t)) form) (hnone : Follows (f none) other) :
    Follows (accept kind >>= f) (.either (.seq (.token kind) form) other) :=
  consumes_accept (fun t ht => (hsome t).imp fun _ _ hv => .left (.seq (.token ht) hv)) hnone.right

theorem follows_expect (kind : TokenKind) (what : Wanted) :
    Follows (expect kind what) (.token kind) :=
  consumes_accept (fun _ ht => consumes_pure (.token ht)) (consumes_fail _)

theorem follows_expectName (what : Wanted) : Follows (expectName what) (.token .identifier) :=
  (follows_expect .identifier what).map

/-- What a parser does in front of a token. -/
def ConsumesAt {α : Type} (t : Token) (p : Parser α) (P : α → List Token → Prop) : Prop :=
  ∀ c : Cursor, c.stop.isEnd = true → c.next = t → Gives p c fun a later =>
    later.errors = c.errors → ∃ u, c.rest = u ++ later.rest ∧ P a u

theorem Consumes.at (hp : Consumes p P) (t : Token) : ConsumesAt t p P :=
  fun c hc _ => hp c hc

theorem consumes_peek {f : Token → Parser β} (hf : ∀ t, ConsumesAt t (f t) Q) :
    Consumes (peek >>= f) Q := by
  intro c hc
  unfold Gives
  rw [bind_of_ok (show peek c = .ok c.next c from rfl)]
  exact hf c.next c hc rfl

/-- The end of the source is not skipped. -/
theorem consumesAt_skip {t : Token} (ht : t.kind ≠ .eof)
    (hq : Consumes q fun b v => Q b (t :: v)) : ConsumesAt t (do skip; q) Q := by
  intro c hc hnext
  rcases hrest : c.rest with _ | ⟨t', rest⟩
  · unfold Cursor.next at hnext
    rw [hrest] at hnext
    subst hnext
    exact absurd (kind_of_isEnd hc) ht
  · unfold Cursor.next at hnext
    rw [hrest] at hnext
    subst hnext
    have hskip : skip c = .ok ⟨⟩ { c with rest } := by
      unfold skip
      rw [hrest]
      rfl
    exact hrest ▸ gives_after_token hrest hskip (hq { c with rest } hc)

/-! ### Lists -/

/-- What may be left out in front of a token of the form of `kind`. -/
theorem follows_unless {a : α} (kind : TokenKind) (h : Follows p form) :
    Follows (do if ← isNext kind then return a else p) (.optional form) := by
  refine (consumes_isNext kind).after_none fun isNext => ?_
  cases isNext
  · exact h.present
  · exact follows_absent _

theorem follows_listBefore {items : Parser (List α)} (kind : TokenKind) (h : Follows items form) :
    Follows (listBefore kind items) (.optional form) :=
  follows_unless kind h

/-- Entries of a list, of which `count` were read before. -/
def Entries (entry : Form) (count : Nat) (u : List Token) : Prop :=
  ∃ others v w, u = v ++ w ∧ count + (others + 1) ≤ maxArity ∧ Derives maxArity entry v
    ∧ Derives maxArity (.times others (.sequence [.token .comma, entry])) w

theorem entries_zero_iff {entry : Form} {u : List Token} :
    Entries entry 0 u ↔ Derives maxArity (.list entry) u := by
  simp only [derives_list_iff, Entries, Nat.zero_add]

theorem consumes_entries {entry : Form} {item : Parser α} {more : Parser (List α)} {count : Nat}
    {fault : SyntaxFault} (hitem : Follows item entry)
    (hmore : Consumes more fun _ => Entries entry (count + 1)) :
    Consumes (do
      noteExcess count fault
      let a ← item
      match ← accept .comma with
      | some _ => return a :: (← more)
      | none => return [a]) fun _ => Entries entry count := by
  refine (consumes_noteExcess count fault).bind fun _ => ?_
  refine hitem.bind fun a => consumes_accept (fun comma hcomma => ?_) ?_
  · refine hmore.bind fun others => consumes_pure ?_
    rintro _ ⟨others, v, w, rfl, hlimit, hnext, hothers⟩ u hu _ ⟨rfl, -⟩
    refine ⟨others + 1, u, comma :: (v ++ w), by simp, by omega, hu, ?_⟩
    have hentry : Derives maxArity (.sequence [.token .comma, entry]) ([comma] ++ (v ++ [])) :=
      .seq (.token hcomma) (.seq hnext .empty)
    simpa using Derives.more hentry hothers
  · refine consumes_pure ?_
    rintro u hu _ ⟨rfl, hcount⟩
    exact ⟨0, u, [], by simp, by omega, hu, .none⟩

/-! ### Expressions -/

/-- The grammar derives the tokens as the part, and as a target too if the tree is one. -/
structure Spells (part : Part) (e : Expr) (u : List Token) : Prop where
  derives : Derives maxArity (.part part) u
  target : e.isTarget = true → Derives maxArity Grammar.target u

/-- What an operand of a level spells, the level does. -/
theorem Spells.single {level : Level} {tighter : List Level} {e : Expr} {u : List Token}
    (hlevels : level :: tighter <:+ Level.all) (h : Spells (joinedPart tighter) e u) :
    Spells level.part e u := by
  refine ⟨.part ?_, h.target⟩
  rw [rule_of_level hlevels]
  exact derives_pair_iff.mpr ⟨u, [], by simp, h.derives, .many_nil⟩

theorem isTarget_join {level : Level} {t : Token} {join : Expr → Expr → Expr} (left right : Expr)
    (h : level.join? t = some join) : (join left right).isTarget = false := by
  unfold Level.join? at h
  split at h <;> cases h <;> rfl

/-- One operand more on the right. -/
theorem Spells.join {level : Level} {tighter : List Level} {left right : Expr} {t : Token}
    {join : Expr → Expr → Expr} {u v : List Token} (hlevels : level :: tighter <:+ Level.all)
    (hleft : Spells level.part left u) (hjoin : level.join? t = some join)
    (hright : Spells (joinedPart tighter) right v) :
    Spells level.part (join left right) (u ++ t :: v) := by
  have hoperator : Derives maxArity level.operator [t] :=
    derives_operator_iff.mpr ⟨t, join, rfl, hjoin⟩
  refine ⟨.part ?_, fun htarget => ?_⟩
  · have hchain := derives_part_iff.mp hleft.derives
    rw [rule_of_level hlevels] at hchain ⊢
    obtain ⟨w, x, rfl, hfirst, hmany⟩ := derives_pair_iff.mp hchain
    have hlast := derives_pair_iff.mpr ⟨[t], v, rfl, hoperator, hright.derives⟩
    exact derives_pair_iff.mpr ⟨w, x ++ t :: v, by simp, hfirst, hmany.many_concat hlast⟩
  · rw [isTarget_join left right hjoin] at htarget
    cases htarget

/-- One suffix more on the right. -/
theorem Spells.call {left e : Expr} {u v : List Token} (hleft : Spells .call left u)
    (hsuffix : Derives maxArity suffix v)
    (htarget : e.isTarget = true → Derives maxArity Grammar.target (u ++ v)) :
    Spells .call e (u ++ v) := by
  refine ⟨?_, htarget⟩
  obtain ⟨w, x, rfl, hprimary, hmany⟩ := derives_call_iff.mp hleft.derives
  exact derives_call_iff.mpr ⟨w, x ++ v, by simp, hprimary, hmany.many_concat hsuffix⟩

theorem Spells.call_of_primary {e : Expr} {u : List Token} (h : Spells .primary e u) :
    Spells .call e u :=
  ⟨derives_call_iff.mpr ⟨u, [], by simp, h.derives, .many_nil⟩, h.target⟩

/-- An operand of one token. -/
theorem consumesAt_operand {t : Token} {kind : TokenKind} {p : Parser Expr}
    (hkind : kind ∈ operandKinds) (h : t.kind.sameForm kind = true)
    (hp : Consumes p fun e u => u = [] ∧ (e.isTarget = true → kind = .identifier)) :
    ConsumesAt t (do skip; p) (Spells .primary) := by
  refine consumesAt_skip (not_end_of_operand hkind h) (hp.imp ?_)
  rintro e _ ⟨rfl, htarget⟩
  refine ⟨derives_operand hkind h, fun he => ?_⟩
  exact derives_target_iff.mpr (.inl ⟨t, rfl, htarget he ▸ h⟩)

/-- An operand of one token that has no number. -/
theorem consumesAt_constant {t : Token} {kind : TokenKind} {e : Expr}
    (hkind : kind ∈ operandKinds) (h : t.kind.sameForm kind = true) (he : e.isTarget = false) :
    ConsumesAt t (do skip; return e) (Spells .primary) :=
  consumesAt_operand hkind h (consumes_pure ⟨rfl, fun htarget => by
    rw [he] at htarget
    cases htarget⟩)

mutual

theorem follows_expression : ∀ steps : Nat,
    Follows (expression steps) (.part .expression)
  | 0 => consumes_fail _
  | steps + 1 => by
    rw [expression]
    refine (consumes_joined steps Level.all (List.suffix_refl _)).bind fun target => ?_
    refine consumes_accept (fun sign hsign => ?_) (consumes_pure fun u hu => ?_)
    · refine (follows_expression steps).bind fun value => ?_
      cases target
      case «variable» name id =>
        refine consumes_freshId.after_none fun _ => consumes_pure fun v hv u hu => ?_
        rw [List.append_nil]
        exact derives_expression_iff.mpr (.inl ⟨u, sign, v, rfl, hu.target rfl, hsign, hv⟩)
      case get object name =>
        refine consumes_pure fun v hv u hu => ?_
        rw [List.append_nil]
        exact derives_expression_iff.mpr (.inl ⟨u, sign, v, rfl, hu.target rfl, hsign, hv⟩)
      all_goals
        exact (consumes_of_noting (P := fun _ _ => False) (gives_note_noting sign _)).bind fun _ =>
          consumes_pure fun _ h => h.elim
    · rw [List.append_nil]
      exact derives_expression_iff.mpr (.inr hu.derives)

theorem consumes_joined : ∀ (steps : Nat) (levels : List Level), levels <:+ Level.all →
    Consumes (joined steps levels) (Spells (joinedPart levels))
  | 0, _, _ => consumes_fail _
  | steps + 1, [], _ => by
    rw [joined]
    exact consumes_unary steps
  | steps + 1, level :: tighter, h => by
    rw [joined]
    have htighter : tighter <:+ Level.all := (List.suffix_cons _ _).trans h
    exact (consumes_joined steps tighter htighter).bind fun left =>
      (consumes_joinedFrom steps level tighter left h).imp fun e v hv u hu => hv u (hu.single h)

/-- The operators are read one at a time, each with the operand on its right. -/
theorem consumes_joinedFrom : ∀ (steps : Nat) (level : Level) (tighter : List Level) (left : Expr),
    level :: tighter <:+ Level.all → Consumes (joinedFrom steps level tighter left) fun e v =>
      ∀ u, Spells level.part left u → Spells level.part e (u ++ v)
  | 0, _, _, _, _ => consumes_fail _
  | steps + 1, level, tighter, left, h => by
    have htighter : tighter <:+ Level.all := (List.suffix_cons _ _).trans h
    rw [joinedFrom]
    refine consumes_acceptJoin (fun t join hjoin => ?_) (consumes_pure fun u hu => ?_)
    · refine (consumes_joined steps tighter htighter).bind fun right => ?_
      refine (consumes_joinedFrom steps level tighter (join left right) h).imp ?_
      intro e w hw v hv u hu
      have hmore := hw _ (hu.join h hjoin hv)
      rwa [List.append_assoc] at hmore
    · rwa [List.append_nil]

theorem consumes_unary : ∀ steps : Nat, Consumes (unary steps) (Spells .unary)
  | 0 => consumes_fail _
  | steps + 1 => by
    rw [unary]
    refine consumes_accept (fun t ht => ?_) (consumes_accept (fun t ht => ?_) ?_)
    · refine (consumes_unary steps).bind fun e => consumes_pure fun u hu => ?_
      rw [List.append_nil]
      exact ⟨derives_unary_iff.mpr (.inl ⟨t, u, rfl, .inl ht, hu.derives⟩), nofun⟩
    · refine (consumes_unary steps).bind fun e => consumes_pure fun u hu => ?_
      rw [List.append_nil]
      exact ⟨derives_unary_iff.mpr (.inl ⟨t, u, rfl, .inr ht, hu.derives⟩), nofun⟩
    · refine (consumes_primary steps).bind fun e => (consumes_calls steps e).imp ?_
      intro e' v hv u hu
      have hcall := hv u hu.call_of_primary
      exact ⟨derives_unary_iff.mpr (.inr hcall.derives), hcall.target⟩

/-- Calls and accesses are read one at a time, each on what stands before it. -/
theorem consumes_calls : ∀ (steps : Nat) (left : Expr), Consumes (calls steps left) fun e v =>
    ∀ u, Spells .call left u → Spells .call e (u ++ v)
  | 0, _ => consumes_fail _
  | steps + 1, left => by
    rw [calls]
    refine consumes_accept (fun t ht => ?_) (consumes_accept (fun t ht => ?_) ?_)
    · have harguments : Consumes (arguments steps 0) fun _ => Derives maxArity (.part .arguments) :=
        (consumes_arguments steps 0).imp fun _ _ h => .part (entries_zero_iff.mp h)
      refine (follows_listBefore _ harguments).bind fun args => ?_
      refine (follows_expect _ _).bind fun paren => ?_
      refine (consumes_calls steps (.call left paren.line args)).imp ?_
      intro e x hx w hw v hv u hu
      obtain ⟨closing, rfl, hclosing⟩ := derives_token_iff.mp hw
      have hsuffix : Derives maxArity suffix (t :: (v ++ [closing])) :=
        derives_suffix_iff.mpr (.inl ⟨t, v, closing, rfl, ht, hv, hclosing⟩)
      have hmore := hx _ (hu.call (e := .call left paren.line args) hsuffix nofun)
      simpa using hmore
    · refine (follows_expectName _).bind fun name => ?_
      refine (consumes_calls steps (.get left name)).imp ?_
      intro e w hw v hv u hu
      obtain ⟨name', rfl, hname⟩ := derives_token_iff.mp hv
      have hsuffix : Derives maxArity suffix [t, name'] :=
        derives_suffix_iff.mpr (.inr ⟨t, name', rfl, ht, hname⟩)
      have hmore := hw _ (hu.call (e := .get left name) hsuffix fun _ =>
        derives_target_iff.mpr (.inr ⟨u, t, name', rfl, hu.derives, ht, hname⟩))
      simpa using hmore
    · exact consumes_pure fun u hu => by rwa [List.append_nil]

theorem consumes_arguments : ∀ steps count : Nat,
    Consumes (arguments steps count) fun _ => Entries (.part .expression) count
  | 0, _ => consumes_fail _
  | steps + 1, count => by
    rw [arguments]
    exact consumes_entries (follows_expression steps) (consumes_arguments steps (count + 1))

theorem consumes_primary : ∀ steps : Nat, Consumes (primary steps) (Spells .primary)
  | 0 => consumes_fail _
  | steps + 1 => by
    rw [primary]
    refine consumes_peek fun t => ?_
    have hform {kind : TokenKind} (h : t.kind = kind) : t.kind.sameForm kind = true := by
      simp [h, TokenKind.sameForm]
    have hoperand {kind : TokenKind} {r : Nat → Expr} (h : t.kind = kind)
        (hkind : kind ∈ operandKinds) (hr : ∀ id, (r id).isTarget = true → kind = .identifier) :
        ConsumesAt t (do skip; return r (← freshId)) (Spells .primary) :=
      consumesAt_operand hkind (hform h) (consumes_freshId.after_none fun id =>
        consumes_pure ⟨rfl, hr id⟩)
    split
    case h_1 h => exact consumesAt_constant (by simp [operandKinds]) (hform h) rfl
    case h_2 h => exact consumesAt_constant (by simp [operandKinds]) (hform h) rfl
    case h_3 h => exact consumesAt_constant (by simp [operandKinds]) (hform h) rfl
    case h_4 value h =>
      have hnumber : t.kind.sameForm (.number 0) = true := by rw [h]; rfl
      exact consumesAt_constant (by simp [operandKinds]) hnumber rfl
    case h_5 value h =>
      have hstring : t.kind.sameForm (.string "") = true := by rw [h]; rfl
      exact consumesAt_constant (by simp [operandKinds]) hstring rfl
    case h_6 h =>
      refine consumesAt_skip (by rw [h]; nofun) ?_
      refine (follows_expect _ _).bind fun _ => (follows_expectName _).bind fun method => ?_
      refine consumes_freshId.after_none fun id => consumes_pure ?_
      intro v hv u hu
      refine ⟨derives_primary_iff.mpr (.inr (.inr ?_)), nofun⟩
      exact .seq (.token (hform h)) (.seq hu (.seq hv .empty))
    case h_7 h => exact hoperand h (by simp [operandKinds]) fun _ => nofun
    case h_8 h => exact hoperand h (by simp [operandKinds]) fun _ _ => rfl
    case h_9 h =>
      refine consumesAt_skip (by rw [h]; nofun) ?_
      refine (follows_expression steps).bind fun inner => (follows_expect _ _).bind fun _ => ?_
      refine consumes_pure ?_
      intro v hv u hu
      refine ⟨derives_primary_iff.mpr (.inr (.inl ?_)), nofun⟩
      exact .seq (.token (hform h)) (.seq hu (.seq hv .empty))
    case h_10 => exact (consumes_fail _).at t

end

/-! ### Parts of statements -/

/-- What the parser reads behind a token of the form of `kind` without an error, makes the part
together with that token. -/
def FollowsAfter {α : Type} (kind : TokenKind) (p : Parser α) (part : Part) : Prop :=
  Consumes p fun _ v => ∀ t : Token, t.kind.sameForm kind = true →
    Derives maxArity (.part part) (t :: v)

section Parts

variable {kind : TokenKind} {part : Part} {steps : Nat}

theorem followsAfter (hrule : part.rule = .seq (.token kind) form) (h : Follows p form) :
    FollowsAfter kind p part :=
  h.imp fun _ _ hv _ ht => .part (hrule ▸ .seq (.token ht) hv)

theorem FollowsAfter.map {r : α → β} (h : FollowsAfter kind p part) :
    FollowsAfter kind (do let a ← p; return r a) part :=
  Consumes.bind h fun a => consumes_pure fun u hu => by rwa [List.append_nil]

theorem FollowsAfter.expected {what : Wanted} (h : FollowsAfter kind p part) :
    Follows (do let _ ← expect kind what; p) (.part part) :=
  Consumes.bind (follows_expect kind what) fun _ => h.imp fun _ v hv u hu => by
    obtain ⟨t, rfl, ht⟩ := derives_token_iff.mp hu
    exact hv t ht

theorem Follows.last (h : Follows p form) : Follows p (.sequence [form]) :=
  h.imp fun _ _ => derives_single_iff.mpr

/-- A last token. -/
theorem follows_closing {r : Token → α} (kind : TokenKind) (what : Wanted) :
    Follows (do let t ← expect kind what; return r t) (.sequence [.token kind]) :=
  (follows_expect kind what).seq fun _ => follows_pure _

theorem follows_expressionBefore (kind : TokenKind) :
    Follows (expressionBefore steps kind) (.optional (.part .expression)) :=
  follows_unless kind (follows_expression steps).map

theorem follows_initializer : Follows (initializer steps)
    (.optional (.sequence [.token .equal, .part .expression])) :=
  follows_accept (fun _ => (follows_expression steps).map.last) (follows_pure _).left

theorem followsAfter_varDeclaration : FollowsAfter .kwVar (varDeclaration steps) .varDecl :=
  followsAfter rfl <| (follows_expectName _).seq fun _ => follows_initializer.seq fun _ =>
    follows_closing _ _

theorem follows_expressionStatement : Follows (expressionStatement steps) (.part .exprStmt) :=
  Follows.part <| (follows_expression steps).seq fun _ => follows_closing _ _

theorem followsAfter_printStatement : FollowsAfter .kwPrint (printStatement steps) .printStmt :=
  followsAfter rfl <| (follows_expression steps).seq fun _ => follows_closing _ _

theorem followsAfter_returnStatement (line : Nat) :
    FollowsAfter .kwReturn (returnStatement steps line) .returnStmt :=
  followsAfter rfl <| (follows_expressionBefore _).seq fun _ => follows_closing _ _

theorem follows_forInitializer : Follows (forInitializer steps)
    (.oneOf [.part .varDecl, .part .exprStmt, .token .semicolon]) := by
  refine consumes_accept (fun t ht => ?_) (consumes_accept (fun t ht => ?_) ?_)
  · exact consumes_pure (.right (.right (.left (.token ht))))
  · refine followsAfter_varDeclaration.bind fun _ => consumes_pure fun v hv => ?_
    rw [List.append_nil]
    exact .left (hv t ht)
  · exact follows_expressionStatement.map.left.right

theorem follows_superclassClause : Follows superclassClause
    (.optional (.sequence [.token .less, .token .identifier])) := by
  refine follows_accept (fun _ => ?_) (follows_pure _).left
  exact (follows_expectName _).seq fun _ => consumes_freshId.after_none fun _ => follows_pure _

theorem consumes_parameters : ∀ steps count : Nat,
    Consumes (parameters steps count) fun _ => Entries (.token .identifier) count
  | 0, _ => consumes_fail _
  | steps + 1, count => by
    rw [parameters]
    exact consumes_entries (follows_expectName _) (consumes_parameters steps (count + 1))

theorem follows_recovering (h : Follows p form) : Follows (recovering p) form := by
  intro c hc
  have hread := h c hc
  unfold Gives at hread ⊢
  unfold recovering
  rcases hrun : p c with ⟨a, later⟩ | ⟨e, later⟩ <;> rw [hrun] at hread
  · exact hread
  · refine ⟨⟨(resume_suffix later.rest).trans hread.rest, hread.stop, hread.nextId,
      hread.errors.trans (List.prefix_append _ _)⟩, fun hquiet => ?_⟩
    -- Recovery has noted an error.
    have hlength := congrArg List.length hquiet
    have hbefore := hread.errors.length_le
    simp only [Cursor.note, List.length_append, List.length_singleton] at hlength
    omega

end Parts

/-! ### Statements -/

mutual

theorem follows_declaration : ∀ steps : Nat, Follows (declaration steps) (.part .declaration)
  | 0 => consumes_fail _
  | steps + 1 => by
    rw [declaration]
    refine consumes_accept (fun t ht => ?_)
      (consumes_accept (fun t ht => ?_) (consumes_accept (fun t ht => ?_) ?_))
    · exact (followsAfter_classDeclaration steps).imp fun _ _ h => .part (.left (h t ht))
    · have hfunction : FollowsAfter .kwFun _ .funDecl := followsAfter rfl
        ((follows_function steps .function).map (r := Stmt.function)).last
      exact hfunction.imp fun _ _ h => .part (.right (.left (h t ht)))
    · exact followsAfter_varDeclaration.imp fun _ _ h =>
        .part (.right (.right (.left (h t ht))))
    · exact (follows_statement steps).left.right.right.right.part

theorem followsAfter_classDeclaration : ∀ steps : Nat,
    FollowsAfter .kwClass (classDeclaration steps) .classDecl
  | 0 => consumes_fail _
  | steps + 1 => by
    rw [classDeclaration]
    refine followsAfter rfl ((follows_expectName _).seq fun name => ?_)
    refine follows_superclassClause.seq fun superclass => (follows_expect _ _).seq fun _ => ?_
    exact (follows_methods steps).seq fun _ => follows_closing _ _

theorem follows_methods : ∀ steps : Nat, Follows (methods steps) (.many (.part .function))
  | 0 => consumes_fail _
  | steps + 1 => by
    rw [methods]
    refine (consumes_isNext _).after_none fun _ => consumes_isAtEnd.after_none fun _ => ?_
    split
    · exact consumes_pure .many_nil
    · refine (follows_function steps .method).bind fun _ => ?_
      refine (follows_methods steps).bind fun _ => consumes_pure fun v hv u hu => ?_
      rw [List.append_nil]
      exact .many_cons hu hv

theorem follows_function : ∀ (steps : Nat) (form : FunctionForm),
    Follows (function steps form) (.part .function)
  | 0, _ => consumes_fail _
  | steps + 1, form => by
    rw [function]
    have hparameters : Follows (parameters steps 0) (.part .parameters) :=
      (consumes_parameters steps 0).imp fun _ _ h => .part (entries_zero_iff.mp h)
    refine .part ((follows_expectName _).seq fun name => (follows_expect _ _).seq fun _ => ?_)
    refine (follows_listBefore _ hparameters).seq fun params => (follows_expect _ _).seq fun _ => ?_
    exact (followsAfter_block steps).map.expected.last

theorem followsAfter_block : ∀ steps : Nat, FollowsAfter .leftBrace (block steps) .block
  | 0 => consumes_fail _
  | steps + 1 => by
    rw [block]
    exact followsAfter rfl ((follows_declarations steps true).seq fun _ => follows_closing _ _)

theorem follows_declarations : ∀ (steps : Nat) (inBlock : Bool),
    Follows (declarations steps inBlock) (.many (.part .declaration))
  | 0, _ => consumes_fail _
  | steps + 1, inBlock => by
    rw [declarations]
    refine (consumes_isNext _).after_none fun _ => consumes_isAtEnd.after_none fun _ => ?_
    split
    · exact consumes_pure .many_nil
    · refine (follows_recovering (follows_declaration steps)).bind fun _ => ?_
      refine (follows_declarations steps inBlock).bind fun _ => consumes_pure fun v hv u hu => ?_
      rw [List.append_nil]
      exact .many_cons hu hv

theorem follows_statement : ∀ steps : Nat, Follows (statement steps) (.part .statement)
  | 0 => consumes_fail _
  | steps + 1 => by
    rw [statement]
    refine consumes_peek fun t => ?_
    have skipping {kind : TokenKind} {part : Part} {p : Parser Stmt} (h : t.kind = kind)
        (hkind : kind ≠ .eof) (hp : FollowsAfter kind p part)
        (hpart : part ∈ statementParts) :
        ConsumesAt t (do skip; p) fun _ => Derives maxArity (.part .statement) :=
      consumesAt_skip (by rwa [h]) (hp.imp fun _ v hv =>
        (hv t (by simp [h, TokenKind.sameForm])).statement hpart)
    split
    case h_1 h => exact skipping h nofun (followsAfter_forStatement steps) (by decide)
    case h_2 h => exact skipping h nofun (followsAfter_ifStatement steps) (by decide)
    case h_3 h => exact skipping h nofun followsAfter_printStatement (by decide)
    case h_4 h => exact skipping h nofun (followsAfter_returnStatement t.line) (by decide)
    case h_5 h => exact skipping h nofun (followsAfter_whileStatement steps) (by decide)
    case h_6 h => exact skipping h nofun (followsAfter_block steps).map (by decide)
    case h_7 => exact (follows_expressionStatement.left.part).at t

theorem followsAfter_forStatement : ∀ steps : Nat,
    FollowsAfter .kwFor (forStatement steps) .forStmt
  | 0 => consumes_fail _
  | steps + 1 => by
    rw [forStatement]
    refine followsAfter rfl ((follows_expect _ _).seq fun _ => ?_)
    refine follows_forInitializer.seq fun clause => ?_
    refine (follows_expressionBefore _).seq fun condition => (follows_expect _ _).seq fun _ => ?_
    refine (follows_expressionBefore _).seq fun increment => (follows_expect _ _).seq fun _ => ?_
    exact (follows_statement steps).map.last

theorem followsAfter_ifStatement : ∀ steps : Nat, FollowsAfter .kwIf (ifStatement steps) .ifStmt
  | 0 => consumes_fail _
  | steps + 1 => by
    rw [ifStatement]
    refine followsAfter rfl ((follows_expect _ _).seq fun _ => ?_)
    refine (follows_expression steps).seq fun condition => (follows_expect _ _).seq fun _ => ?_
    refine (follows_statement steps).seq fun thenBranch => Follows.last ?_
    exact follows_accept (fun _ => (follows_statement steps).map.last) (follows_pure _).left

theorem followsAfter_whileStatement : ∀ steps : Nat,
    FollowsAfter .kwWhile (whileStatement steps) .whileStmt
  | 0 => consumes_fail _
  | steps + 1 => by
    rw [whileStatement]
    refine followsAfter rfl ((follows_expect _ _).seq fun _ => ?_)
    refine (follows_expression steps).seq fun condition => (follows_expect _ _).seq fun _ => ?_
    exact (follows_statement steps).map.last

end

theorem gives_isAtEnd_isEmpty (c : Cursor) :
    Gives isAtEnd c fun atEnd later => later = c ∧ atEnd = c.rest.isEmpty :=
  ⟨.refl c, rfl, rfl⟩

/-- Outside of blocks, declarations are read up to the end of the source. -/
theorem gives_declarations_end : ∀ (steps : Nat) (c : Cursor),
    Gives (declarations steps false) c fun _ later => later.rest = []
  | 0, _ => gives_fail _
  | steps + 1, c => by
    have hfirst : Advances (recovering (declaration steps)) :=
      (mirrors_recovering (whole_declaration steps steps (Nat.le_refl _)
        (ι := ⟨id, 0, []⟩)).mirrors).advances
    rw [declarations]
    refine (gives_isNext _).bind fun _ c₁ _ hc₁ => ?_
    refine (gives_isAtEnd_isEmpty c₁).bind fun atEnd c₂ _ ⟨hc₂, hatEnd⟩ => ?_
    subst hc₁ hc₂ hatEnd
    split
    case isTrue h => exact gives_pure (by simpa using h)
    case isFalse =>
      refine (hfirst _).bind fun _ c₃ _ _ => ?_
      exact (gives_declarations_end steps c₃).bind fun _ _ _ hrest => gives_pure hrest

theorem follows_wholeExpression (steps : Nat) :
    Follows (wholeExpression steps) (.part .expression) := by
  refine (follows_expression steps).bind fun value => consumes_isAtEnd.after_none fun atEnd => ?_
  split
  · exact consumes_pure fun u hu => by rwa [List.append_nil]
  · exact consumes_fail _

theorem gives_wholeExpression_end (steps : Nat) (c : Cursor) :
    Gives (wholeExpression steps) c fun _ later => later.rest = [] := by
  refine (advances_expression steps c).bind fun value c₁ _ _ => ?_
  refine (gives_isAtEnd_isEmpty c₁).bind fun atEnd c₂ _ ⟨hc₂, hatEnd⟩ => ?_
  subst hc₂ hatEnd
  split
  case isTrue h => exact gives_pure (by simpa using h)
  case isFalse => exact gives_fail _

end Parser

/-! ### Whole sources -/

namespace Cursor

variable {c : Cursor}

/-- If a run leaves no error, it has a result, and none was noted. -/
theorem ok_of_run_quiet {α : Type} {p : Parser α} (h : (c.run p).2.1 = []) :
    ∃ a later, p { c with errors := [] } = .ok a later ∧ later.errors = [] := by
  unfold run at h
  rcases hp : p { c with errors := [] } with ⟨a, later⟩ | ⟨e, later⟩ <;> rw [hp] at h
  · exact ⟨a, later, rfl, h⟩
  · simp at h

/-- What is known of a parser that succeeds holds of a run without errors. -/
theorem gives_of_run_quiet {α : Type} {p : Parser α} {P : α → List Token → Prop}
    {Q : α → Cursor → Prop} (h : (c.run p).2.1 = []) (hc : c.stop.isEnd = true)
    (hp : Parser.Consumes p P) (hq : Parser.Gives p { c with errors := [] } Q) :
    ∃ a u later, (c.run p).1 = some a ∧ c.rest = u ++ later.rest ∧ P a u ∧ Q a later := by
  obtain ⟨a, later, hrun, hquiet⟩ := ok_of_run_quiet h
  have hresult : (c.run p).1 = some a := by
    unfold run
    rw [hrun]
  have hread := (hp { c with errors := [] } hc).and hq
  unfold Parser.Gives at hread
  rw [hrun] at hread
  obtain ⟨u, hu, hP⟩ := hread.2.1 hquiet
  exact ⟨a, u, later, hresult, hu, hP, hread.2.2⟩

/-- A program without errors is made of declarations. -/
theorem derives_of_program (hc : c.stop.isEnd = true) (h : c.program.2.1 = []) :
    Derives maxArity (.many (.part .declaration)) c.rest := by
  obtain ⟨_, u, later, -, hu, hderives, hend⟩ := gives_of_run_quiet h hc
    (Parser.follows_declarations c.steps false) (Parser.gives_declarations_end c.steps _)
  rw [hu, hend, List.append_nil]
  exact hderives

/-- A source that is an expression without errors is derived as one. -/
theorem derives_of_expression (hc : c.stop.isEnd = true) (h : c.expression.2.1 = []) :
    Derives maxArity (.part .expression) c.rest := by
  obtain ⟨_, u, later, -, hu, hderives, hend⟩ := gives_of_run_quiet h hc
    (Parser.follows_wholeExpression c.steps) (Parser.gives_wholeExpression_end c.steps _)
  rw [hu, hend, List.append_nil]
  exact hderives

end Cursor

end Treewalk
