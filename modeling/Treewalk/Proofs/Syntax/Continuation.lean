import Treewalk.Proofs.Syntax.Moving
import Treewalk.Proofs.Syntax.Numbering
import Treewalk.Proofs.Token.Seam

/-!
# Parsing inside a longer source

**A parser that notes no error does the same when its tokens stand on other lines, its numbers
start elsewhere, and more tokens follow.**  It must not have looked at the end of its own tokens,
however: there it would now see what follows.  Only a few parsers look there and still succeed.
An expression might be continued, so one that ends its source may only be followed by a semicolon;
a statement that ends its source may be followed by anything but `else`.

Errors must be excluded because recovery skips tokens, perhaps into those that follow.
-/

namespace Treewalk

/-- Where a source is found in a longer one: how its lines change, by how much its numbers grow,
and what follows. -/
structure Embedding where
  line : Nat → Nat
  offset : Nat
  more : List Token

/-- The change of a tree. -/
def Embedding.shift (ι : Embedding) : Shift :=
  ⟨ι.line, fun id => id + ι.offset⟩

/-- What follows is no `else`. -/
def Embedding.NoElse (ι : Embedding) : Prop :=
  ∀ t ∈ ι.more.head?, t.kind.sameForm .kwElse = false

/-- What follows ends an expression: a semicolon, if there is anything. -/
def Embedding.Ends (ι : Embedding) : Prop :=
  ∀ t ∈ ι.more.head?, t.kind = .semicolon

/-- The second cursor stands in the longer source where the first stands in its own. -/
structure Cursor.Inside (ι : Embedding) (c d : Cursor) : Prop where
  rest : d.rest = c.rest.map (Token.move ι.line) ++ ι.more
  stop : c.stop.isEnd = true
  nextId : d.nextId = c.nextId + ι.offset
  errors : d.errors = c.errors

namespace Parser

/-- Without errors, the second parser does in the longer source what the first does in its own.
Where the first leaves no token, this may depend on a condition on what follows. -/
def Mirrors {α β : Type} (ι : Embedding) (last : Prop) (result : α → β) (p : Parser α)
    (q : Parser β) : Prop :=
  ∀ c : Cursor, Gives p c fun a later => ∀ d, c.Inside ι d → later.errors = c.errors →
    (later.rest ≠ [] ∨ last) → ∃ e, q d = .ok (result a) e ∧ later.Inside ι e

/-- The parser only ever moves forward. -/
def Advances {α : Type} (p : Parser α) : Prop :=
  ∀ c : Cursor, Gives p c fun _ _ => True

/-- Whenever the parser succeeds, it has read a token. -/
def Reads {α : Type} (p : Parser α) : Prop :=
  ∀ c : Cursor, Gives p c fun _ later => later.rest.length < c.rest.length

variable {α β γ δ : Type} {ι : Embedding} {last stronger : Prop} {p : Parser α} {q : Parser β}
variable {u : α → β} {v : γ → δ} {f : α → Parser γ} {g : β → Parser δ}

theorem Gives.and {c : Cursor} {Q R : α → Cursor → Prop} (hQ : Gives p c Q) (hR : Gives p c R) :
    Gives p c fun a later => Q a later ∧ R a later := by
  unfold Gives at hQ hR ⊢
  rcases hpc : p c with ⟨a, later⟩ | ⟨e, later⟩ <;> rw [hpc] at hQ hR
  · exact ⟨hQ.1, hQ.2, hR.2⟩
  · exact hQ

/-! ### Parsers in sequence -/

theorem mirrors_pure {a : α} {b : β} (h : b = u a) :
    Mirrors ι last u (pure a : Parser α) (pure b) := by
  intro c
  refine gives_pure fun d hd _ _ => ⟨d, ?_, hd⟩
  rw [h]
  rfl

theorem mirrors_fail (fault : SyntaxFault) : Mirrors ι last u (fail fault) q :=
  fun _ => gives_fail fault

/-- What a condition holds for, a stronger one holds for. -/
theorem Mirrors.mono (h : Mirrors ι last u p q) (hlast : stronger → last) :
    Mirrors ι stronger u p q := fun c =>
  (h c).imp fun _ _ _ hrun d hd hquiet hend => hrun d hd hquiet (hend.imp_right hlast)

/-- If no error is noted on the whole way, none is on either part. -/
theorem quiet_parts {c later last : Cursor} (hquiet : last.errors = c.errors)
    (hlater : c.Onward later) (hlast : later.Onward last) :
    later.errors = c.errors ∧ last.errors = later.errors := by
  have h := hlater.errors.eq_of_length_le (by
    rw [← hquiet]
    exact hlast.errors.length_le)
  exact ⟨h.symm, by rw [hquiet, h]⟩

theorem Mirrors.bind (hp : Mirrors ι last u p q) (hf : ∀ a, Mirrors ι last v (f a) (g (u a))) :
    Mirrors ι last v (p >>= f) (q >>= g) := by
  intro c
  refine (hp c).bind fun a c₁ h₁ hrun => (hf a c₁).imp fun b c₂ h₂ hrest => ?_
  intro d hd hquiet hend
  obtain ⟨hquiet₁, hquiet₂⟩ := quiet_parts hquiet h₁ h₂
  have hend₁ : c₁.rest ≠ [] ∨ last := hend.imp_left fun hne hnil => hne (by
    have hsuffix := h₂.rest
    rw [hnil] at hsuffix
    exact List.suffix_nil.mp hsuffix)
  obtain ⟨d₁, hq, hd₁⟩ := hrun d hd hquiet₁ hend₁
  obtain ⟨d₂, hg, hd₂⟩ := hrest d₁ hd₁ hquiet₂ hend
  exact ⟨d₂, by rw [bind_of_ok hq]; exact hg, hd₂⟩

/-- If what comes next reads a token, there is no end to be seen before. -/
theorem Mirrors.bind_before (hp : Mirrors ι False u p q)
    (hf : ∀ a, Mirrors ι last v (f a) (g (u a))) (hreads : ∀ a, Reads (f a)) :
    Mirrors ι last v (p >>= f) (q >>= g) := by
  intro c
  refine (hp c).bind fun a c₁ h₁ hrun => ((hf a c₁).and (hreads a c₁)).imp fun b c₂ h₂ hrest => ?_
  intro d hd hquiet hend
  obtain ⟨hquiet₁, hquiet₂⟩ := quiet_parts hquiet h₁ h₂
  have hleft : c₁.rest ≠ [] := List.ne_nil_of_length_pos (Nat.zero_lt_of_lt hrest.2)
  obtain ⟨d₁, hq, hd₁⟩ := hrun d hd hquiet₁ (Or.inl hleft)
  obtain ⟨d₂, hg, hd₂⟩ := hrest.1 d₁ hd₁ hquiet₂ hend
  exact ⟨d₂, by rw [bind_of_ok hq]; exact hg, hd₂⟩

theorem reads_fail (fault : SyntaxFault) : Reads (fail fault : Parser α) :=
  fun _ => gives_fail fault

theorem Mirrors.advances (h : Mirrors ι last u p q) : Advances p := fun c =>
  (h c).imp fun _ _ _ _ => trivial

theorem Reads.advances (h : Reads p) : Advances p := fun c =>
  (h c).imp fun _ _ _ _ => trivial

theorem advances_pure (a : α) : Advances (pure a) := fun _ => gives_pure trivial

theorem Reads.bind (hp : Reads p) (hf : ∀ a, Advances (f a)) : Reads (p >>= f) :=
  fun c => (hp c).bind fun a c₁ _ hlt => (hf a c₁).imp fun _ _ h₂ _ =>
    Nat.lt_of_le_of_lt h₂.rest.length_le hlt

theorem reads_bind (hp : Advances p) (hf : ∀ a, Reads (f a)) : Reads (p >>= f) :=
  fun c => (hp c).bind fun a c₁ h₁ _ => (hf a c₁).imp fun _ _ _ hlt =>
    Nat.lt_of_lt_of_le hlt h₁.rest.length_le

/-! ### Single tokens -/

/-- What does not change the cursor. -/
theorem mirrors_same {view : Cursor → α} {view' : Cursor → β}
    (h : ∀ c d : Cursor, c.Inside ι d → (c.rest ≠ [] ∨ last) → view' d = u (view c)) :
    Mirrors ι last u (fun c => .ok (view c) c) (fun d => .ok (view' d) d) := by
  intro c
  refine ⟨.refl c, fun d hd _ hend => ⟨d, ?_, hd⟩⟩
  show EStateM.Result.ok (view' d) d = _
  rw [h c d hd hend]

/-- The parser does not succeed here. -/
def Refuses (p : Parser α) (c : Cursor) : Prop :=
  Gives p c fun _ _ => False

theorem Refuses.bind {c : Cursor} (h : Refuses p c) (f : α → Parser γ) : Refuses (p >>= f) c :=
  Gives.bind h fun _ _ _ hfalse => hfalse.elim

/-- The same, but only where tokens are left. -/
structure MirrorsBefore (ι : Embedding) (last : Prop) (u : α → β) (p : Parser α) (q : Parser β) :
    Prop where
  advances : Advances p
  before : ∀ c : Cursor, c.rest ≠ [] → Gives p c fun a later => ∀ d, c.Inside ι d →
    later.errors = c.errors → (later.rest ≠ [] ∨ last) → ∃ e, q d = .ok (u a) e ∧ later.Inside ι e

theorem Mirrors.before (h : Mirrors ι last u p q) : MirrorsBefore ι last u p q :=
  ⟨h.advances, fun c _ => h c⟩

/-- The next token, when nothing can be done with the end of the source. -/
theorem mirrors_peek {f : Token → Parser γ} {g : Token → Parser δ}
    (hf : ∀ t, MirrorsBefore ι last v (f t) (g (t.move ι.line)))
    (hend : ∀ c, c.rest = [] → c.stop.isEnd = true → Refuses (f c.next) c) :
    Mirrors ι last v (peek >>= f) (peek >>= g) := by
  intro c
  have hpeek : ∀ c : Cursor, peek c = .ok c.next c := fun _ => rfl
  rcases hrest : c.rest with _ | ⟨t, rest⟩
  · have hrun := (hf c.next).advances c
    have hrefuses := hend c hrest
    unfold Refuses Gives at hrefuses
    unfold Gives at hrun ⊢
    rw [bind_of_ok (hpeek c)]
    rcases hfc : f c.next c with ⟨a, later⟩ | ⟨e, later⟩ <;> rw [hfc] at hrun hrefuses
    · exact ⟨hrun.1, fun d hd => (hrefuses hd.stop).2.elim⟩
    · exact hrun
  · have hrun := (hf c.next).before c (by rw [hrest]; exact List.cons_ne_nil t rest)
    unfold Gives at hrun ⊢
    rw [bind_of_ok (hpeek c)]
    rcases hfc : f c.next c with ⟨a, later⟩ | ⟨e, later⟩ <;> rw [hfc] at hrun
    · refine ⟨hrun.1, fun d hd hquiet hlater => ?_⟩
      have hnext : d.next = c.next.move ι.line := by
        unfold Cursor.next
        rw [hd.rest, hrest]
        rfl
      rw [bind_of_ok (hpeek d), hnext]
      exact hrun.2 d hd hquiet hlater
    · exact hrun

theorem mirrors_isNext (kind : TokenKind)
    (hlast : last → ∀ t ∈ ι.more.head?, t.kind.sameForm kind = false) :
    Mirrors ι last id (isNext kind) (isNext kind) := by
  refine mirrors_same fun c d hd hend => ?_
  rw [hd.rest]
  rcases hrest : c.rest with _ | ⟨t, rest⟩
  · have hmore := hlast (hend.resolve_left fun hne => hne hrest)
    rcases hhead : ι.more with _ | ⟨t, more⟩
    · rfl
    · exact hmore t (by rw [hhead]; rfl)
  · rfl

theorem mirrors_isAtEnd (hlast : last → ι.more = []) : Mirrors ι last id isAtEnd isAtEnd := by
  refine mirrors_same fun c d hd hend => ?_
  rw [hd.rest]
  rcases hrest : c.rest with _ | ⟨t, rest⟩
  · rw [hlast (hend.resolve_left fun hne => hne hrest)]
    rfl
  · rfl

theorem mirrors_skip (hlast : last → ι.more = []) : Mirrors ι last id skip skip := by
  intro c
  refine ⟨⟨List.tail_suffix _, rfl, Nat.le_refl _, List.prefix_refl _⟩, fun d hd _ hend => ?_⟩
  refine ⟨{ d with rest := d.rest.tail }, rfl, ⟨?_, hd.stop, hd.nextId, hd.errors⟩⟩
  show d.rest.tail = c.rest.tail.map (Token.move ι.line) ++ ι.more
  rw [hd.rest]
  rcases hrest : c.rest with _ | ⟨t, rest⟩
  · rw [hlast (hend.resolve_left fun hne => hne (by show c.rest.tail = []; rw [hrest]; rfl))]
    rfl
  · rfl

/-- A token that is read once it has been looked at. -/
theorem Mirrors.behind_skip {f : PUnit → Parser γ} {g : PUnit → Parser δ}
    (h : Mirrors ι last v (f ⟨⟩) (g ⟨⟩)) : MirrorsBefore ι last v (skip >>= f) (skip >>= g) := by
  have hskip : ∀ c : Cursor, skip c = .ok ⟨⟩ { c with rest := c.rest.tail } := fun _ => rfl
  have hgives : ∀ c : Cursor, Gives (skip >>= f) c fun a later => ∀ d,
      Cursor.Inside ι { c with rest := c.rest.tail } d → later.errors = c.errors →
      (later.rest ≠ [] ∨ last) → ∃ e, g ⟨⟩ d = .ok (v a) e ∧ later.Inside ι e := by
    intro c
    have honward : c.Onward { c with rest := c.rest.tail } :=
      ⟨List.tail_suffix _, rfl, Nat.le_refl _, List.prefix_refl _⟩
    have hrun := h { c with rest := c.rest.tail }
    unfold Gives at hrun ⊢
    rw [bind_of_ok (hskip c)]
    rcases hfc : f ⟨⟩ { c with rest := c.rest.tail } with ⟨a, later⟩ | ⟨e, later⟩ <;>
      rw [hfc] at hrun
    · exact ⟨honward.trans hrun.1, hrun.2⟩
    · exact honward.trans hrun
  refine ⟨fun c => (hgives c).imp fun _ _ _ _ => trivial, fun c hrest => ?_⟩
  refine (hgives c).imp fun a later _ hrun d hd hquiet hlater => ?_
  rw [bind_of_ok (hskip d)]
  refine hrun _ ⟨?_, hd.stop, hd.nextId, hd.errors⟩ hquiet hlater
  show d.rest.tail = c.rest.tail.map (Token.move ι.line) ++ ι.more
  obtain ⟨t, rest, hcons⟩ := List.exists_cons_of_ne_nil hrest
  rw [hd.rest, hcons]
  rfl

theorem mirrors_freshId : Mirrors ι last ι.shift.id freshId freshId := by
  intro c
  refine ⟨⟨List.suffix_refl _, rfl, Nat.le_succ _, List.prefix_refl _⟩, fun d hd _ _ => ?_⟩
  refine ⟨{ d with nextId := d.nextId + 1 }, ?_, ⟨hd.rest, hd.stop, ?_, hd.errors⟩⟩
  · show EStateM.Result.ok d.nextId _ = _
    rw [hd.nextId]
    rfl
  · show d.nextId + 1 = c.nextId + 1 + ι.offset
    rw [hd.nextId]
    omega

/-- Whatever notes an error need not be looked at. -/
theorem mirrors_of_noting (h : ∀ c, Gives p c fun _ later => later.errors ≠ c.errors) :
    Mirrors ι last u p q := fun c =>
  (h c).imp fun _ _ _ hnoting _ _ hquiet _ => absurd hquiet hnoting

theorem gives_note_noting (token : Token) (fault : SyntaxFault) (c : Cursor) :
    Gives (note token fault) c fun _ later => later.errors ≠ c.errors := by
  refine ⟨⟨List.suffix_refl _, rfl, Nat.le_refl _, List.prefix_append _ _⟩, fun h => ?_⟩
  have hlength := congrArg List.length h
  simp [Cursor.note] at hlength

theorem mirrors_note {u : PUnit → β} (token : Token) (fault : SyntaxFault) :
    Mirrors ι last u (note token fault) q :=
  mirrors_of_noting (gives_note_noting token fault)

theorem mirrors_noteExcess (count : Nat) (fault : SyntaxFault) :
    Mirrors ι last id (noteExcess count fault) (noteExcess count fault) := by
  unfold noteExcess
  by_cases hcount : maxArity ≤ count
  · rw [if_pos hcount]
    refine mirrors_of_noting fun c => gives_peek.bind fun t later _ hlater => ?_
    obtain ⟨rfl, -⟩ := hlater
    exact gives_note_noting t fault _
  · rw [if_neg hcount]
    exact mirrors_pure rfl

theorem accept_of_nil {c : Cursor} (hrest : c.rest = []) (kind : TokenKind) :
    accept kind c = .ok none c := by
  simp [accept, hrest]

theorem accept_of_sameForm {c : Cursor} {t : Token} {rest : List Token} {kind : TokenKind}
    (hrest : c.rest = t :: rest) (hkind : t.kind.sameForm kind = true) :
    accept kind c = .ok (some t) { c with rest } := by
  simp [accept, hrest, hkind]

theorem accept_of_not_sameForm {c : Cursor} {t : Token} {rest : List Token} {kind : TokenKind}
    (hrest : c.rest = t :: rest) (hkind : ¬ t.kind.sameForm kind = true) :
    accept kind c = .ok none c := by
  simp [accept, hrest, hkind]

theorem onward_cons {c : Cursor} {t : Token} {rest : List Token} (hrest : c.rest = t :: rest) :
    c.Onward { c with rest } :=
  ⟨by rw [hrest]; exact List.suffix_cons t rest, rfl, Nat.le_refl _, List.prefix_refl _⟩

theorem inside_cons {c d : Cursor} (hd : c.Inside ι d) {t : Token} {rest : List Token}
    (hrest : c.rest = t :: rest) :
    d.rest = t.move ι.line :: (rest.map (Token.move ι.line) ++ ι.more)
      ∧ Cursor.Inside ι { c with rest } { d with rest := rest.map (Token.move ι.line) ++ ι.more } :=
  ⟨by rw [hd.rest, hrest]; rfl, rfl, hd.stop, hd.nextId, hd.errors⟩

/-- An optional token: at the end of the source, what follows must not be of its form. -/
theorem mirrors_accept (kind : TokenKind)
    (hlast : last → ∀ t ∈ ι.more.head?, t.kind.sameForm kind = false) :
    Mirrors ι last (Option.map (Token.move ι.line)) (accept kind) (accept kind) := by
  intro c
  unfold Gives
  rcases hrest : c.rest with _ | ⟨t, rest⟩
  · rw [accept_of_nil hrest]
    refine ⟨.refl c, fun d hd _ hend => ⟨d, ?_, hd⟩⟩
    have hmore := hlast (hend.resolve_left fun hne => hne hrest)
    have hd' := hd.rest
    rw [hrest, List.map_nil, List.nil_append] at hd'
    rcases hhead : ι.more with _ | ⟨t, more⟩ <;> rw [hhead] at hd'
    · exact accept_of_nil hd' kind
    · have hkind := hmore t (by rw [hhead]; rfl)
      exact accept_of_not_sameForm hd' (by rw [hkind]; simp)
  · by_cases hkind : t.kind.sameForm kind = true
    · rw [accept_of_sameForm hrest hkind]
      refine ⟨onward_cons hrest, fun d hd _ _ => ?_⟩
      obtain ⟨hd', hinside⟩ := inside_cons hd hrest
      exact ⟨_, accept_of_sameForm hd' hkind, hinside⟩
    · rw [accept_of_not_sameForm hrest hkind]
      refine ⟨.refl c, fun d hd _ _ => ⟨d, ?_, hd⟩⟩
      exact accept_of_not_sameForm (inside_cons hd hrest).1 hkind

/-- A token that must be there. -/
theorem mirrors_expect (kind : TokenKind) (what : Wanted) :
    Mirrors ι last (Token.move ι.line) (expect kind what) (expect kind what) := by
  intro c
  unfold Gives expect
  rcases hrest : c.rest with _ | ⟨t, rest⟩
  · rw [bind_of_ok (accept_of_nil hrest kind)]
    exact Cursor.Onward.refl c
  · by_cases hkind : t.kind.sameForm kind = true
    · rw [bind_of_ok (accept_of_sameForm hrest hkind)]
      refine ⟨onward_cons hrest, fun d hd _ _ => ?_⟩
      obtain ⟨hd', hinside⟩ := inside_cons hd hrest
      exact ⟨_, bind_of_ok (accept_of_sameForm hd' hkind), hinside⟩
    · rw [bind_of_ok (accept_of_not_sameForm hrest hkind)]
      exact Cursor.Onward.refl c

theorem reads_expect (kind : TokenKind) (what : Wanted) : Reads (expect kind what) := by
  intro c
  unfold Gives expect
  rcases hrest : c.rest with _ | ⟨t, rest⟩
  · rw [bind_of_ok (accept_of_nil hrest kind)]
    exact Cursor.Onward.refl c
  · by_cases hkind : t.kind.sameForm kind = true
    · rw [bind_of_ok (accept_of_sameForm hrest hkind)]
      exact ⟨onward_cons hrest, Nat.lt_succ_self _⟩
    · rw [bind_of_ok (accept_of_not_sameForm hrest hkind)]
      exact Cursor.Onward.refl c

theorem mirrors_expectName (what : Wanted) :
    Mirrors ι last (Name.move ι.shift) (expectName what) (expectName what) :=
  (mirrors_expect .identifier what).bind fun _ => mirrors_pure rfl

theorem reads_expectName (what : Wanted) : Reads (expectName what) :=
  (reads_expect .identifier what).bind fun _ => advances_pure _

theorem mirrors_listBefore {u : List α → List β} (kind : TokenKind) {items : Parser (List α)}
    {items' : Parser (List β)} (hu : u [] = [])
    (hlast : last → ∀ t ∈ ι.more.head?, t.kind.sameForm kind = false)
    (hitems : Mirrors ι last u items items') :
    Mirrors ι last u (listBefore kind items) (listBefore kind items') := by
  refine (mirrors_isNext kind hlast).bind fun isNext => ?_
  cases isNext
  · exact hitems
  · exact mirrors_pure hu.symm

/-! ### Operators -/

theorem Level.join?_move {level : Level} {t : Token} {join : Expr → Expr → Expr}
    (h : level.join? t = some join) (σ : Shift) :
    ∃ join', level.join? (t.move σ.line) = some join'
      ∧ ∀ left right, join' (left.move σ) (right.move σ) = (join left right).move σ := by
  unfold Level.join? at h ⊢
  simp only [Token.move]
  split at h <;> cases h <;> simp_all [Expr.move]

theorem Level.join?_move_none {level : Level} {t : Token} (h : level.join? t = none)
    (line : Nat → Nat) : level.join? (t.move line) = none := by
  unfold Level.join? at h ⊢
  split at h <;> first
    | (cases h; done)
    | simp_all [Token.move]

/-- An optional operator, with what follows it.  The operators themselves need not be compared,
only what they make of operands. -/
theorem mirrors_acceptJoin {f : Option (Expr → Expr → Expr) → Parser γ}
    {g : Option (Expr → Expr → Expr) → Parser δ} (level : Level)
    (hlast : last → ∀ t ∈ ι.more.head?, level.join? t = none)
    (hnone : Mirrors ι last v (f none) (g none))
    (hsome : ∀ join join' : Expr → Expr → Expr,
      (∀ left right, join' (left.move ι.shift) (right.move ι.shift) = (join left right).move ι.shift) →
      Mirrors ι last v (f (some join)) (g (some join'))) :
    Mirrors ι last v (acceptJoin level >>= f) (acceptJoin level >>= g) := by
  have hstay : ∀ c : Cursor, acceptJoin level c = .ok none c →
      (∀ d, c.Inside ι d → (c.rest ≠ [] ∨ last) → acceptJoin level d = .ok none d) →
      Gives (acceptJoin level >>= f) c fun a later => ∀ d, c.Inside ι d →
        later.errors = c.errors → (later.rest ≠ [] ∨ last) →
        ∃ e, (acceptJoin level >>= g) d = .ok (v a) e ∧ later.Inside ι e := by
    intro c hc hd
    have h := hnone c
    unfold Gives at h ⊢
    rw [bind_of_ok hc]
    rcases hrun : f none c with ⟨a, later⟩ | ⟨e, later⟩ <;> rw [hrun] at h
    · refine ⟨h.1, fun d hinside hquiet hend => ?_⟩
      have hend' : c.rest ≠ [] ∨ last := hend.imp_left fun hne hnil => hne (by
        have hsuffix := h.1.rest
        rw [hnil] at hsuffix
        exact List.suffix_nil.mp hsuffix)
      rw [bind_of_ok (hd d hinside hend')]
      exact h.2 d hinside hquiet hend
    · exact h
  intro c
  rcases hrest : c.rest with _ | ⟨t, rest⟩
  · refine hstay c (by simp [acceptJoin, hrest]) fun d hinside hend => ?_
    have hmore := hlast (hend.resolve_left fun hne => hne hrest)
    have hd := hinside.rest
    rw [hrest, List.map_nil, List.nil_append] at hd
    rcases hhead : ι.more with _ | ⟨t, more⟩ <;> rw [hhead] at hd
    · simp [acceptJoin, hd]
    · simp [acceptJoin, hd, hmore t (by rw [hhead]; rfl)]
  · rcases hjoin : level.join? t with _ | join
    · refine hstay c (by simp [acceptJoin, hrest, hjoin]) fun d hinside _ => ?_
      obtain ⟨hd, -⟩ := inside_cons hinside hrest
      simp [acceptJoin, hd, Level.join?_move_none hjoin]
    · obtain ⟨join', hjoin', hsame⟩ := Level.join?_move hjoin ι.shift
      have h := hsome join join' hsame { c with rest }
      unfold Gives at h ⊢
      rw [bind_of_ok (show acceptJoin level c = .ok (some join) { c with rest } by
        simp [acceptJoin, hrest, hjoin])]
      rcases hrun : f (some join) { c with rest } with ⟨a, later⟩ | ⟨e, later⟩ <;> rw [hrun] at h
      · refine ⟨(onward_cons hrest).trans h.1, fun d hinside hquiet hend => ?_⟩
        obtain ⟨hd, hinside'⟩ := inside_cons hinside hrest
        rw [bind_of_ok (show acceptJoin level d = .ok (some join')
          { d with rest := rest.map (Token.move ι.line) ++ ι.more } by
            simp only [acceptJoin, hd]
            rw [show level.join? (t.move ι.line) = some join' from hjoin'])]
        exact h.2 _ hinside' hquiet hend
      · exact (onward_cons hrest).trans h

/-! ### Expressions -/

section Expressions

theorem kind_of_isEnd {t : Token} (h : t.isEnd = true) : t.kind = .eof := by
  unfold Token.isEnd at h
  rcases hkind : t.kind <;> rw [hkind] at h <;> first | rfl | cases h

theorem noMore_accept (kind : TokenKind) (h : ι.more = []) :
    ∀ t ∈ ι.more.head?, t.kind.sameForm kind = false := by
  rw [h]
  intro t ht
  cases ht

theorem Embedding.ends_of_nil (h : ι.more = []) : ι.Ends := by
  rw [Embedding.Ends, h]
  intro t ht
  cases ht

/-- A semicolon is none of the tokens with which an expression goes on. -/
theorem ends_accept {kind : TokenKind} (hkind : TokenKind.semicolon.sameForm kind = false)
    (h : ι.Ends) : ∀ t ∈ ι.more.head?, t.kind.sameForm kind = false := by
  intro t ht
  rw [h t ht]
  exact hkind

theorem ends_join (level : Level) (h : ι.Ends) : ∀ t ∈ ι.more.head?, level.join? t = none := by
  intro t ht
  have hkind := h t ht
  cases level <;> simp [Level.join?, hkind]

mutual

theorem mirrors_expression : ∀ steps steps' : Nat, steps ≤ steps' →
    Mirrors ι ι.Ends (Expr.move ι.shift) (expression steps) (expression steps')
  | 0, _, _ => mirrors_fail _
  | steps + 1, 0, h => absurd h (Nat.not_succ_le_zero _)
  | steps + 1, steps' + 1, h => by
    have hle := Nat.le_of_succ_le_succ h
    rw [expression, expression]
    refine (mirrors_joined steps steps' hle Level.all).bind fun target => ?_
    refine (mirrors_accept .equal (ends_accept rfl)).bind fun sign? => ?_
    rcases sign? with _ | sign
    · exact mirrors_pure rfl
    refine (mirrors_expression steps steps' hle).bind fun value => ?_
    cases target
    case «variable» name id => exact mirrors_freshId.bind fun _ => mirrors_pure rfl
    case get object name => exact mirrors_pure rfl
    all_goals exact (mirrors_note sign _ (u := id)).bind fun _ => mirrors_pure rfl

theorem mirrors_joined : ∀ steps steps' : Nat, steps ≤ steps' → ∀ levels : List Level,
    Mirrors ι ι.Ends (Expr.move ι.shift) (joined steps levels) (joined steps' levels)
  | 0, _, _, _ => mirrors_fail _
  | steps + 1, 0, h, _ => absurd h (Nat.not_succ_le_zero _)
  | steps + 1, steps' + 1, h, [] => by
    rw [joined, joined]
    exact mirrors_unary steps steps' (Nat.le_of_succ_le_succ h)
  | steps + 1, steps' + 1, h, level :: tighter => by
    have hle := Nat.le_of_succ_le_succ h
    rw [joined, joined]
    exact (mirrors_joined steps steps' hle tighter).bind fun left =>
      mirrors_joinedFrom steps steps' hle level tighter left

theorem mirrors_joinedFrom : ∀ steps steps' : Nat, steps ≤ steps' → ∀ (level : Level)
    (tighter : List Level) (left : Expr),
    Mirrors ι ι.Ends (Expr.move ι.shift) (joinedFrom steps level tighter left)
      (joinedFrom steps' level tighter (left.move ι.shift))
  | 0, _, _, _, _, _ => mirrors_fail _
  | steps + 1, 0, h, _, _, _ => absurd h (Nat.not_succ_le_zero _)
  | steps + 1, steps' + 1, h, level, tighter, left => by
    have hle := Nat.le_of_succ_le_succ h
    rw [joinedFrom, joinedFrom]
    refine mirrors_acceptJoin level (ends_join level) (mirrors_pure rfl) fun join join' hsame => ?_
    refine (mirrors_joined steps steps' hle tighter).bind fun right => ?_
    rw [hsame]
    exact mirrors_joinedFrom steps steps' hle level tighter (join left right)

theorem mirrors_unary : ∀ steps steps' : Nat, steps ≤ steps' →
    Mirrors ι ι.Ends (Expr.move ι.shift) (unary steps) (unary steps')
  | 0, _, _ => mirrors_fail _
  | steps + 1, 0, h => absurd h (Nat.not_succ_le_zero _)
  | steps + 1, steps' + 1, h => by
    have hle := Nat.le_of_succ_le_succ h
    rw [unary, unary]
    refine (mirrors_accept .bang (ends_accept rfl)).bind fun bang? => ?_
    rcases bang? with _ | bang
    · refine (mirrors_accept .minus (ends_accept rfl)).bind fun minus? => ?_
      rcases minus? with _ | minus
      · exact (mirrors_primary steps steps' hle).bind fun operand =>
          mirrors_calls steps steps' hle operand
      · exact (mirrors_unary steps steps' hle).bind fun operand => mirrors_pure rfl
    · exact (mirrors_unary steps steps' hle).bind fun operand => mirrors_pure rfl

theorem mirrors_calls : ∀ steps steps' : Nat, steps ≤ steps' → ∀ left : Expr,
    Mirrors ι ι.Ends (Expr.move ι.shift) (calls steps left)
      (calls steps' (left.move ι.shift))
  | 0, _, _, _ => mirrors_fail _
  | steps + 1, 0, h, _ => absurd h (Nat.not_succ_le_zero _)
  | steps + 1, steps' + 1, h, left => by
    have hle := Nat.le_of_succ_le_succ h
    rw [calls, calls]
    refine (mirrors_accept .leftParen (ends_accept rfl)).bind fun paren? => ?_
    rcases paren? with _ | paren
    · refine (mirrors_accept .dot (ends_accept rfl)).bind fun dot? => ?_
      rcases dot? with _ | dot
      · exact mirrors_pure rfl
      · exact (mirrors_expectName _).bind fun name =>
          mirrors_calls steps steps' hle (.get left name)
    · refine (mirrors_listBefore .rightParen rfl (ends_accept rfl)
        (mirrors_arguments steps steps' hle 0)).bind fun args => ?_
      exact (mirrors_expect _ _).bind fun closing =>
        mirrors_calls steps steps' hle (.call left closing.line args)

theorem mirrors_arguments : ∀ steps steps' : Nat, steps ≤ steps' → ∀ count : Nat,
    Mirrors ι ι.Ends (moveArguments ι.shift) (arguments steps count)
      (arguments steps' count)
  | 0, _, _, _ => mirrors_fail _
  | steps + 1, 0, h, _ => absurd h (Nat.not_succ_le_zero _)
  | steps + 1, steps' + 1, h, count => by
    have hle := Nat.le_of_succ_le_succ h
    rw [arguments, arguments]
    refine (mirrors_noteExcess count _).bind fun _ => ?_
    refine (mirrors_expression steps steps' hle).bind fun argument => ?_
    refine (mirrors_accept .comma (ends_accept rfl)).bind fun comma? => ?_
    rcases comma? with _ | comma
    · exact mirrors_pure rfl
    · exact (mirrors_arguments steps steps' hle (count + 1)).bind fun args => mirrors_pure rfl

theorem mirrors_primary : ∀ steps steps' : Nat, steps ≤ steps' →
    Mirrors ι ι.Ends (Expr.move ι.shift) (primary steps) (primary steps')
  | 0, _, _ => mirrors_fail _
  | steps + 1, 0, h => absurd h (Nat.not_succ_le_zero _)
  | steps + 1, steps' + 1, h => by
    have hle := Nat.le_of_succ_le_succ h
    rw [primary, primary]
    refine mirrors_peek (fun t => ?_) fun c hrest hstop => ?_
    rotate_left
    · have hnext : c.next.kind = .eof := by
        unfold Cursor.next
        rw [hrest]
        exact kind_of_isEnd hstop
      rw [hnext]
      exact gives_fail _
    have hkind : (t.move ι.line).kind = t.kind := rfl
    rw [hkind]
    split
    · exact Mirrors.behind_skip (mirrors_pure rfl)
    · exact Mirrors.behind_skip (mirrors_pure rfl)
    · exact Mirrors.behind_skip (mirrors_pure rfl)
    · exact Mirrors.behind_skip (mirrors_pure rfl)
    · exact Mirrors.behind_skip (mirrors_pure rfl)
    · refine Mirrors.behind_skip ((mirrors_expect _ _).bind fun _ => ?_)
      exact (mirrors_expectName _).bind fun method => mirrors_freshId.bind fun _ => mirrors_pure rfl
    · exact Mirrors.behind_skip (mirrors_freshId.bind fun _ => mirrors_pure rfl)
    · exact Mirrors.behind_skip (mirrors_freshId.bind fun _ => mirrors_pure rfl)
    · refine Mirrors.behind_skip ((mirrors_expression steps steps' hle).bind fun inner => ?_)
      exact (mirrors_expect _ _).bind fun _ => mirrors_pure rfl
    · exact (mirrors_fail _).before

end

end Expressions

/-! ### Parts of statements -/

/-- A part that a token closes. -/
theorem Mirrors.closed {r : α → γ} {r' : β → δ} (hp : Mirrors ι False u p q) (kind : TokenKind)
    (what : Wanted) (hr : ∀ a, r' (u a) = v (r a)) :
    Mirrors ι last v (do let a ← p; let _ ← expect kind what; return r a)
      (do let b ← q; let _ ← expect kind what; return r' b) :=
  hp.bind_before (fun a => (mirrors_expect kind what).bind fun _ => mirrors_pure (hr a))
    fun _ => (reads_expect kind what).bind fun _ => advances_pure _

theorem reads_closed {r : α → γ} (hp : Advances p) (kind : TokenKind) (what : Wanted) :
    Reads (do let a ← p; let _ ← expect kind what; return r a) :=
  reads_bind hp fun _ => (reads_expect kind what).bind fun _ => advances_pure _

section Parts

variable {steps steps' : Nat}

theorem mirrors_expressionBefore (h : steps ≤ steps') (kind : TokenKind) :
    Mirrors ι (ι.more = []) (Option.map (Expr.move ι.shift)) (expressionBefore steps kind)
      (expressionBefore steps' kind) := by
  refine (mirrors_isNext kind (noMore_accept kind)).bind fun isNext => ?_
  cases isNext
  · exact ((mirrors_expression steps steps' h).mono Embedding.ends_of_nil).bind fun value =>
      mirrors_pure rfl
  · exact mirrors_pure rfl

theorem mirrors_initializer (h : steps ≤ steps') :
    Mirrors ι (ι.more = []) (Option.map (Expr.move ι.shift)) (initializer steps)
      (initializer steps') := by
  refine (mirrors_accept .equal (noMore_accept _)).bind fun sign? => ?_
  rcases sign? with _ | sign
  · exact mirrors_pure rfl
  · exact ((mirrors_expression steps steps' h).mono Embedding.ends_of_nil).bind fun value =>
      mirrors_pure rfl

theorem mirrors_varDeclaration (h : steps ≤ steps') :
    Mirrors ι last (Stmt.move ι.shift) (varDeclaration steps) (varDeclaration steps') := by
  refine (mirrors_expectName _).bind fun name => ?_
  exact ((mirrors_initializer h).mono False.elim).closed _ _ fun value => rfl

theorem reads_varDeclaration (steps : Nat) : Reads (varDeclaration steps) :=
  (reads_expectName _).bind fun _ =>
    (reads_closed (mirrors_initializer (Nat.le_refl steps) (ι := ⟨id, 0, []⟩)).advances _ _).advances

theorem mirrors_expressionStatement (h : steps ≤ steps') :
    Mirrors ι last (Stmt.move ι.shift) (expressionStatement steps) (expressionStatement steps') :=
  ((mirrors_expression _ _ h).mono False.elim).closed _ _ fun _ => rfl

theorem mirrors_printStatement (h : steps ≤ steps') :
    Mirrors ι last (Stmt.move ι.shift) (printStatement steps) (printStatement steps') :=
  ((mirrors_expression _ _ h).mono False.elim).closed _ _ fun _ => rfl

theorem mirrors_returnStatement (h : steps ≤ steps') (line : Nat) :
    Mirrors ι last (Stmt.move ι.shift) (returnStatement steps line)
      (returnStatement steps' (ι.line line)) :=
  ((mirrors_expressionBefore h .semicolon).mono False.elim).closed _ _ fun _ => rfl

theorem advances_expression (steps : Nat) : Advances (expression steps) :=
  (mirrors_expression steps steps (Nat.le_refl _) (ι := ⟨id, 0, []⟩)).advances

theorem advances_expressionBefore (steps : Nat) (kind : TokenKind) :
    Advances (expressionBefore steps kind) :=
  (mirrors_expressionBefore (Nat.le_refl steps) kind (ι := ⟨id, 0, []⟩)).advances

theorem reads_expressionStatement (steps : Nat) : Reads (expressionStatement steps) :=
  reads_closed (advances_expression steps) _ _

theorem reads_printStatement (steps : Nat) : Reads (printStatement steps) :=
  reads_closed (advances_expression steps) _ _

theorem reads_returnStatement (steps line : Nat) : Reads (returnStatement steps line) :=
  reads_closed (advances_expressionBefore steps .semicolon) _ _

theorem mirrors_forInitializer (h : steps ≤ steps') :
    Mirrors ι (ι.more = []) (Option.map (Stmt.move ι.shift)) (forInitializer steps)
      (forInitializer steps') := by
  refine (mirrors_accept .semicolon (noMore_accept _)).bind fun semicolon? => ?_
  rcases semicolon? with _ | semicolon
  · refine (mirrors_accept .kwVar (noMore_accept _)).bind fun keyword? => ?_
    rcases keyword? with _ | keyword
    · exact (mirrors_expressionStatement h).bind fun s => mirrors_pure rfl
    · exact (mirrors_varDeclaration h).bind fun s => mirrors_pure rfl
  · exact mirrors_pure rfl

theorem forLoop_move (σ : Shift) (clause : Option Stmt) (condition increment : Option Expr)
    (body : Stmt) :
    forLoop (clause.map (Stmt.move σ)) (condition.map (Expr.move σ)) (increment.map (Expr.move σ))
      (body.move σ) = (forLoop clause condition increment body).move σ := by
  cases clause <;> cases condition <;> cases increment <;> rfl

theorem mirrors_superclassClause :
    Mirrors ι (ι.more = []) (Option.map (Reference.move ι.shift)) superclassClause
      superclassClause := by
  refine (mirrors_accept .less (noMore_accept _)).bind fun sign? => ?_
  rcases sign? with _ | sign
  · exact mirrors_pure rfl
  · exact (mirrors_expectName _).bind fun name => mirrors_freshId.bind fun _ => mirrors_pure rfl

theorem mirrors_parameters : ∀ steps steps' : Nat, steps ≤ steps' → ∀ count : Nat,
    Mirrors ι (ι.more = []) (List.map (Name.move ι.shift)) (parameters steps count)
      (parameters steps' count)
  | 0, _, _, _ => mirrors_fail _
  | steps + 1, 0, h, _ => absurd h (Nat.not_succ_le_zero _)
  | steps + 1, steps' + 1, h, count => by
    rw [parameters, parameters]
    refine (mirrors_noteExcess count _).bind fun _ => (mirrors_expectName _).bind fun name => ?_
    refine (mirrors_accept .comma (noMore_accept _)).bind fun comma? => ?_
    rcases comma? with _ | comma
    · exact mirrors_pure rfl
    · exact (mirrors_parameters steps steps' (Nat.le_of_succ_le_succ h) (count + 1)).bind
        fun names => mirrors_pure rfl

theorem mirrors_recovering (hp : Mirrors ι last u p q) :
    Mirrors ι last (Option.map u) (recovering p) (recovering q) := by
  intro c
  have h := hp c
  unfold Gives at h ⊢
  unfold recovering
  rcases hrun : p c with ⟨a, later⟩ | ⟨e, later⟩ <;> rw [hrun] at h
  · refine ⟨h.1, fun d hd hquiet hend => ?_⟩
    obtain ⟨after, hq, hafter⟩ := h.2 d hd hquiet hend
    exact ⟨after, by rw [hq]; rfl, hafter⟩
  · refine ⟨⟨(resume_suffix later.rest).trans h.rest, h.stop, h.nextId,
      h.errors.trans (List.prefix_append _ _)⟩, fun d _ hquiet _ => ?_⟩
    -- Recovery has noted an error.
    have hlength := congrArg List.length hquiet
    have hbefore := h.errors.length_le
    simp only [Cursor.note, List.length_append, List.length_singleton] at hlength
    omega

end Parts

/-! ### Statements -/

/-- A parser for something that may end its source, and does not without reading a token. -/
structure MirrorsWhole (ι : Embedding) (u : α → β) (p : Parser α) (q : Parser β) : Prop where
  mirrors : Mirrors ι ι.NoElse u p q
  reads : Reads p

theorem mirrorsWhole_fail (fault : SyntaxFault) : MirrorsWhole ι u (fail fault) q :=
  ⟨mirrors_fail fault, reads_fail fault⟩

theorem MirrorsWhole.advances (h : MirrorsWhole ι u p q) : Advances p :=
  h.reads.advances

/-- Where no token follows, nothing is to be excluded. -/
theorem MirrorsWhole.inner (h : MirrorsWhole ι u p q) : Mirrors ι (ι.more = []) u p q :=
  h.mirrors.mono (noMore_accept .kwElse)

theorem MirrorsWhole.map {r : α → γ} {r' : β → δ} (h : MirrorsWhole ι u p q)
    (hr : ∀ a, r' (u a) = v (r a)) :
    MirrorsWhole ι v (do let a ← p; return r a) (do let b ← q; return r' b) :=
  ⟨h.mirrors.bind fun a => mirrors_pure (hr a), h.reads.bind fun _ => advances_pure _⟩

/-- A first part that may see the end of the source only if the whole does. -/
theorem MirrorsWhole.after (hp : Mirrors ι False u p q) (hf : ∀ a, MirrorsWhole ι v (f a) (g (u a))) :
    MirrorsWhole ι v (p >>= f) (q >>= g) :=
  ⟨hp.bind_before (fun a => (hf a).mirrors) fun a => (hf a).reads,
    reads_bind hp.advances fun a => (hf a).reads⟩

/-- A second part that may see the end of the source together with the whole. -/
theorem MirrorsWhole.before (hp : MirrorsWhole ι u p q)
    (hf : ∀ a, Mirrors ι ι.NoElse v (f a) (g (u a))) : MirrorsWhole ι v (p >>= f) (q >>= g) :=
  ⟨hp.mirrors.bind hf, hp.reads.bind fun a => (hf a).advances⟩

theorem MirrorsWhole.peek {f : Token → Parser γ} {g : Token → Parser δ}
    (hf : ∀ t, MirrorsWhole ι v (f t) (g (t.move ι.line))) :
    MirrorsWhole ι v (peek >>= f) (peek >>= g) := by
  refine ⟨mirrors_peek (fun t => (hf t).mirrors.before) fun c hrest _ => ?_,
    reads_bind (fun _ => gives_peek.imp fun _ _ _ _ => trivial) fun t => (hf t).reads⟩
  refine ((hf c.next).reads c).imp fun _ _ _ hlt => ?_
  rw [hrest] at hlt
  exact Nat.not_lt_zero _ hlt

theorem accept_before (kind : TokenKind) :
    Mirrors ι False (Option.map (Token.move ι.line)) (accept kind) (accept kind) :=
  mirrors_accept kind False.elim

mutual

theorem whole_declaration : ∀ steps steps' : Nat, steps ≤ steps' →
    MirrorsWhole ι (Stmt.move ι.shift) (declaration steps) (declaration steps')
  | 0, _, _ => mirrorsWhole_fail _
  | steps + 1, 0, h => absurd h (Nat.not_succ_le_zero _)
  | steps + 1, steps' + 1, h => by
    have hle := Nat.le_of_succ_le_succ h
    rw [declaration, declaration]
    refine .after (accept_before .kwClass) fun class? => ?_
    rcases class? with _ | _
    · refine .after (accept_before .kwFun) fun fun? => ?_
      rcases fun? with _ | _
      · refine .after (accept_before .kwVar) fun var? => ?_
        rcases var? with _ | _
        · exact whole_statement steps steps' hle
        · exact ⟨mirrors_varDeclaration hle, reads_varDeclaration steps⟩
      · exact (whole_function steps steps' hle .function).map fun _ => rfl
    · exact whole_classDeclaration steps steps' hle

theorem whole_classDeclaration : ∀ steps steps' : Nat, steps ≤ steps' →
    MirrorsWhole ι (Stmt.move ι.shift) (classDeclaration steps) (classDeclaration steps')
  | 0, _, _ => mirrorsWhole_fail _
  | steps + 1, 0, h => absurd h (Nat.not_succ_le_zero _)
  | steps + 1, steps' + 1, h => by
    have hle := Nat.le_of_succ_le_succ h
    have hmethods := mirrors_methods steps steps' hle
    rw [classDeclaration, classDeclaration]
    refine .after (mirrors_expectName _) fun name => ?_
    refine .after (mirrors_superclassClause.mono False.elim) fun superclass => ?_
    refine .after (mirrors_expect _ _) fun _ => ?_
    exact ⟨(hmethods.mono False.elim).closed _ _ fun _ => rfl, reads_closed hmethods.advances _ _⟩

theorem mirrors_methods : ∀ steps steps' : Nat, steps ≤ steps' →
    Mirrors ι (ι.more = []) (moveMethods ι.shift) (methods steps) (methods steps')
  | 0, _, _ => mirrors_fail _
  | steps + 1, 0, h => absurd h (Nat.not_succ_le_zero _)
  | steps + 1, steps' + 1, h => by
    have hle := Nat.le_of_succ_le_succ h
    rw [methods, methods]
    refine (mirrors_isNext .rightBrace (noMore_accept _)).bind fun closing => ?_
    refine (mirrors_isAtEnd id).bind fun atEnd => ?_
    simp only [id_eq]
    split
    · exact mirrors_pure rfl
    · refine (whole_function steps steps' hle .method).inner.bind fun method => ?_
      exact (mirrors_methods steps steps' hle).bind fun rest => mirrors_pure rfl

theorem whole_function : ∀ steps steps' : Nat, steps ≤ steps' → ∀ form : FunctionForm,
    MirrorsWhole ι (FunctionDecl.move ι.shift) (function steps form) (function steps' form)
  | 0, _, _, _ => mirrorsWhole_fail _
  | steps + 1, 0, h, _ => absurd h (Nat.not_succ_le_zero _)
  | steps + 1, steps' + 1, h, form => by
    have hle := Nat.le_of_succ_le_succ h
    rw [function, function]
    refine .after (mirrors_expectName _) fun name => .after (mirrors_expect _ _) fun _ => ?_
    have hparams := mirrors_listBefore (ι := ι) .rightParen rfl (noMore_accept _)
      (mirrors_parameters steps steps' hle 0)
    refine .after (hparams.mono False.elim) fun params => ?_
    refine .after (mirrors_expect _ _) fun _ => .after (mirrors_expect _ _) fun _ => ?_
    exact (whole_block steps steps' hle).map fun _ => rfl

theorem whole_block : ∀ steps steps' : Nat, steps ≤ steps' →
    MirrorsWhole ι (moveStatements ι.shift) (block steps) (block steps')
  | 0, _, _ => mirrorsWhole_fail _
  | steps + 1, 0, h => absurd h (Nat.not_succ_le_zero _)
  | steps + 1, steps' + 1, h => by
    have hbody := mirrors_declarations steps steps' (Nat.le_of_succ_le_succ h) true
    rw [block, block]
    exact ⟨(hbody.mono False.elim).closed _ _ fun _ => rfl, reads_closed hbody.advances _ _⟩

theorem mirrors_declarations : ∀ steps steps' : Nat, steps ≤ steps' → ∀ inBlock : Bool,
    Mirrors ι (ι.more = []) (moveStatements ι.shift) (declarations steps inBlock)
      (declarations steps' inBlock)
  | 0, _, _, _ => mirrors_fail _
  | steps + 1, 0, h, _ => absurd h (Nat.not_succ_le_zero _)
  | steps + 1, steps' + 1, h, inBlock => by
    have hle := Nat.le_of_succ_le_succ h
    have hfirst := (whole_declaration steps steps' hle).inner
    rw [declarations, declarations]
    refine (mirrors_isNext .rightBrace (noMore_accept _)).bind fun closing => ?_
    refine (mirrors_isAtEnd id).bind fun atEnd => ?_
    simp only [id_eq]
    split
    · exact mirrors_pure rfl
    · refine (mirrors_recovering hfirst).bind fun first => ?_
      refine (mirrors_declarations steps steps' hle inBlock).bind fun others => mirrors_pure ?_
      rw [moveStatements_append]
      cases first <;> rfl

theorem whole_statement : ∀ steps steps' : Nat, steps ≤ steps' →
    MirrorsWhole ι (Stmt.move ι.shift) (statement steps) (statement steps')
  | 0, _, _ => mirrorsWhole_fail _
  | steps + 1, 0, h => absurd h (Nat.not_succ_le_zero _)
  | steps + 1, steps' + 1, h => by
    have hle := Nat.le_of_succ_le_succ h
    have hskip : Mirrors ι False id skip skip := mirrors_skip False.elim
    rw [statement, statement]
    refine .peek fun t => ?_
    have hkind : (t.move ι.line).kind = t.kind := rfl
    rw [hkind]
    split
    · exact .after hskip fun _ => whole_forStatement steps steps' hle
    · exact .after hskip fun _ => whole_ifStatement steps steps' hle
    · exact .after hskip fun _ => ⟨mirrors_printStatement hle, reads_printStatement steps⟩
    · exact .after hskip fun _ =>
        ⟨mirrors_returnStatement hle t.line, reads_returnStatement steps t.line⟩
    · exact .after hskip fun _ => whole_whileStatement steps steps' hle
    · exact .after hskip fun _ => (whole_block steps steps' hle).map fun _ => rfl
    · exact ⟨mirrors_expressionStatement hle, reads_expressionStatement steps⟩

theorem whole_forStatement : ∀ steps steps' : Nat, steps ≤ steps' →
    MirrorsWhole ι (Stmt.move ι.shift) (forStatement steps) (forStatement steps')
  | 0, _, _ => mirrorsWhole_fail _
  | steps + 1, 0, h => absurd h (Nat.not_succ_le_zero _)
  | steps + 1, steps' + 1, h => by
    have hle := Nat.le_of_succ_le_succ h
    rw [forStatement, forStatement]
    refine .after (mirrors_expect _ _) fun _ => ?_
    refine .after ((mirrors_forInitializer hle).mono False.elim) fun clause => ?_
    refine .after ((mirrors_expressionBefore hle .semicolon).mono False.elim) fun condition => ?_
    refine .after (mirrors_expect _ _) fun _ => ?_
    refine .after ((mirrors_expressionBefore hle .rightParen).mono False.elim) fun increment => ?_
    refine .after (mirrors_expect _ _) fun _ => ?_
    exact (whole_statement steps steps' hle).map fun body => forLoop_move _ _ _ _ _

theorem whole_ifStatement : ∀ steps steps' : Nat, steps ≤ steps' →
    MirrorsWhole ι (Stmt.move ι.shift) (ifStatement steps) (ifStatement steps')
  | 0, _, _ => mirrorsWhole_fail _
  | steps + 1, 0, h => absurd h (Nat.not_succ_le_zero _)
  | steps + 1, steps' + 1, h => by
    have hle := Nat.le_of_succ_le_succ h
    have hstatement := whole_statement steps steps' hle
    rw [ifStatement, ifStatement]
    refine .after (mirrors_expect _ _) fun _ => ?_
    refine .after ((mirrors_expression steps steps' hle).mono False.elim) fun condition => ?_
    refine .after (mirrors_expect _ _) fun _ => ?_
    refine hstatement.before fun thenBranch => ?_
    -- Here the end of the source may be seen: an `else` could follow.
    refine (mirrors_accept .kwElse id).bind fun else? => ?_
    rcases else? with _ | _
    · exact mirrors_pure rfl
    · exact hstatement.mirrors.bind fun elseBranch => mirrors_pure rfl

theorem whole_whileStatement : ∀ steps steps' : Nat, steps ≤ steps' →
    MirrorsWhole ι (Stmt.move ι.shift) (whileStatement steps) (whileStatement steps')
  | 0, _, _ => mirrorsWhole_fail _
  | steps + 1, 0, h => absurd h (Nat.not_succ_le_zero _)
  | steps + 1, steps' + 1, h => by
    have hle := Nat.le_of_succ_le_succ h
    rw [whileStatement, whileStatement]
    refine .after (mirrors_expect _ _) fun _ => ?_
    refine .after ((mirrors_expression steps steps' hle).mono False.elim) fun condition => ?_
    refine .after (mirrors_expect _ _) fun _ => ?_
    exact (whole_statement steps steps' hle).map fun _ => rfl

end

end Parser

end Treewalk
