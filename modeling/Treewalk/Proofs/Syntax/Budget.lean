import Treewalk.Proofs.Syntax.Numbering

/-!
# The steps a parser needs

**Sixteen steps for every token left and sixteen for the end are enough for every parser, and more
change nothing.**  A call that reads no token leads to a rule further down the grammar, and the
longest such way has thirteen calls, from the declarations of a block to a primary expression.  So
each rule has a number of steps that it needs beyond those for its tokens, and a call behind a token
that was read has sixteen more of them to spend.

A budget that runs out would show as an error, thrown or noted by recovery.  Two runs of a rule with
enough steps each are therefore put side by side: they do the same, and neither has such an error.
-/

namespace Treewalk

/-- The tokens end with the end of the source, and no error noted so far says that the steps have
    run out. -/
structure Cursor.Unspent (c : Cursor) : Prop where
  stop : c.stop.isEnd = true
  errors : ∀ e ∈ c.errors, e.fault ≠ .outOfSteps

theorem Cursor.Unspent.note {c : Cursor} (hc : c.Unspent) {e : SyntaxError}
    (he : e.fault ≠ .outOfSteps) : (c.note e).Unspent where
  stop := hc.stop
  errors e' h := by
    rcases List.mem_append.mp h with h | h
    · exact hc.errors e' h
    · rw [List.mem_singleton.mp h]
      exact he

/-- Behind the last token only the end of the source is seen. -/
theorem Cursor.Unspent.next_kind {c : Cursor} (hc : c.Unspent) (hrest : c.rest = []) :
    c.next.kind = .eof := by
  have hstop := hc.stop
  unfold Token.isEnd at hstop
  unfold Cursor.next
  rw [hrest, List.headD_nil]
  revert hstop
  cases c.stop.kind <;> intro h <;> first | rfl | cases h

namespace Parser

/-- Two parsers do the same at a cursor, and neither runs out of steps. -/
def Settles {α : Type} (p p' : Parser α) (c : Cursor) (Q : α → Cursor → Prop) : Prop :=
  c.Unspent → p' c = p c ∧ match p c with
    | .ok result later => c.Onward later ∧ later.Unspent ∧ Q result later
    | .error e later => c.Onward later ∧ later.Unspent ∧ e.fault ≠ .outOfSteps

variable {α β : Type} {c : Cursor}

theorem settles_pure {Q : α → Cursor → Prop} {a : α} (h : Q a c) :
    Settles (pure a) (pure a) c Q :=
  fun hc => ⟨rfl, .refl c, hc, h⟩

theorem settles_fail {Q : α → Cursor → Prop} {fault : SyntaxFault} (h : fault ≠ .outOfSteps) :
    Settles (fail fault : Parser α) (fail fault) c Q :=
  fun hc => ⟨rfl, .refl c, hc, h⟩

theorem Settles.bind {p p' : Parser α} {f f' : α → Parser β} {Q : α → Cursor → Prop}
    {R : β → Cursor → Prop} (hp : Settles p p' c Q)
    (hf : ∀ a later, c.Onward later → Q a later → Settles (f a) (f' a) later R) :
    Settles (p >>= f) (p' >>= f') c R := by
  intro hc
  obtain ⟨hsame, hrun⟩ := hp hc
  rcases hpc : p c with ⟨a, middle⟩ | ⟨e, middle⟩
  · rw [hpc] at hsame hrun
    obtain ⟨hmiddle, hunspent, hQ⟩ := hrun
    obtain ⟨hsame', hrun'⟩ := hf a middle hmiddle hQ hunspent
    rw [bind_of_ok hpc, bind_of_ok hsame]
    refine ⟨hsame', ?_⟩
    rcases hfa : f a middle with ⟨b, later⟩ | ⟨e, later⟩
    · rw [hfa] at hrun'
      exact ⟨hmiddle.trans hrun'.1, hrun'.2⟩
    · rw [hfa] at hrun'
      exact ⟨hmiddle.trans hrun'.1, hrun'.2⟩
  · rw [hpc] at hsame hrun
    rw [bind_of_error hpc, bind_of_error hsame]
    exact ⟨rfl, hrun⟩

theorem Settles.imp {p p' : Parser α} {Q R : α → Cursor → Prop} (hp : Settles p p' c Q)
    (h : ∀ a later, c.Onward later → Q a later → R a later) : Settles p p' c R := by
  intro hc
  obtain ⟨hsame, hrun⟩ := hp hc
  refine ⟨hsame, ?_⟩
  rcases hpc : p c with ⟨a, later⟩ | ⟨e, later⟩
  · rw [hpc] at hrun
    exact ⟨hrun.1, hrun.2.1, h a later hrun.1 hrun.2.2⟩
  · rw [hpc] at hrun
    exact hrun

theorem Settles.gives {p p' : Parser α} {Q : α → Cursor → Prop} (hp : Settles p p' c Q)
    (hc : c.Unspent) : Gives p c Q := by
  have hrun := (hp hc).2
  unfold Gives
  rcases hpc : p c with ⟨a, later⟩ | ⟨e, later⟩
  · rw [hpc] at hrun
    exact ⟨hrun.1, hrun.2.2⟩
  · rw [hpc] at hrun
    exact hrun.1

/-! ### Reading a token -/

/-- The parsers settle and have read a token if they succeed. -/
def SettlesReading {α : Type} (p p' : Parser α) (c : Cursor) : Prop :=
  Settles p p' c fun _ later => later.rest.length < c.rest.length

/-- What reads a token at first has read one at the end. -/
theorem SettlesReading.bind {p p' : Parser α} {f f' : α → Parser β} (hp : SettlesReading p p' c)
    (hf : ∀ a later, later.rest.length < c.rest.length →
      Settles (f a) (f' a) later fun _ _ => True) :
    SettlesReading (p >>= f) (p' >>= f') c :=
  Settles.bind hp fun a later _ hread => (hf a later hread).imp fun _ _ hon _ =>
    Nat.lt_of_le_of_lt hon.rest.length_le hread

theorem SettlesReading.settles {p p' : Parser α} (h : SettlesReading p p' c) :
    Settles p p' c fun _ _ => True :=
  Settles.imp h fun _ _ _ _ => trivial

/-- What reads a token at the end has read one. -/
theorem Settles.reading {p p' : Parser α} {f f' : α → Parser β} {Q : α → Cursor → Prop}
    (hp : Settles p p' c Q)
    (hf : ∀ a later, later.rest.length ≤ c.rest.length → Q a later →
      SettlesReading (f a) (f' a) later) :
    SettlesReading (p >>= f) (p' >>= f') c :=
  hp.bind fun a later hon hQ => (hf a later hon.rest.length_le hQ).imp fun _ _ _ hread =>
    Nat.lt_of_lt_of_le hread hon.rest.length_le

theorem settlesReading_fail {fault : SyntaxFault} (h : fault ≠ .outOfSteps) :
    SettlesReading (fail fault : Parser α) (fail fault) c :=
  settles_fail h

/-! ### Single tokens -/

/-- The next token.  It ends the source only where no token is left. -/
theorem settles_peek : Settles peek peek c fun t later =>
    later = c ∧ t = c.next ∧ (c.rest = [] → t.kind = .eof) :=
  fun hc => ⟨rfl, .refl c, hc, rfl, rfl, hc.next_kind⟩

theorem settles_skip : Settles skip skip c fun _ later => later.rest = c.rest.tail :=
  fun hc => ⟨rfl, ⟨List.tail_suffix _, rfl, Nat.le_refl _, List.prefix_refl _⟩,
    ⟨hc.stop, hc.errors⟩, rfl⟩

theorem settles_isNext (kind : TokenKind) :
    Settles (isNext kind) (isNext kind) c fun _ later => later = c :=
  fun hc => ⟨rfl, .refl c, hc, rfl⟩

theorem settles_isAtEnd : Settles isAtEnd isAtEnd c fun atEnd later =>
    later = c ∧ (atEnd = true ↔ c.rest = []) :=
  fun hc => ⟨rfl, .refl c, hc, rfl, List.isEmpty_iff⟩

theorem settles_note {token : Token} {fault : SyntaxFault} (h : fault ≠ .outOfSteps) :
    Settles (note token fault) (note token fault) c fun _ _ => True :=
  fun hc => ⟨rfl, ⟨List.suffix_refl _, rfl, Nat.le_refl _, List.prefix_append _ _⟩,
    hc.note h, trivial⟩

theorem settles_freshId : Settles freshId freshId c fun _ _ => True :=
  fun hc => ⟨rfl, ⟨List.suffix_refl _, rfl, Nat.le_succ _, List.prefix_refl _⟩,
    ⟨hc.stop, hc.errors⟩, trivial⟩

theorem settles_accept (kind : TokenKind) : Settles (accept kind) (accept kind) c fun t? later =>
    ∀ t, t? = some t → later.rest.length < c.rest.length := by
  intro hc
  refine ⟨rfl, ?_⟩
  unfold accept
  rcases hrest : c.rest with _ | ⟨t, rest⟩
  · exact ⟨.refl c, hc, fun _ h => nomatch h⟩
  · by_cases hkind : t.kind.sameForm kind
    · simp only [if_pos hkind]
      refine ⟨⟨?_, rfl, Nat.le_refl _, List.prefix_refl _⟩, ⟨hc.stop, hc.errors⟩, ?_⟩
      · rw [hrest]
        exact List.suffix_cons t rest
      · intro _ _
        exact Nat.lt_succ_self _
    · simp only [if_neg hkind]
      exact ⟨.refl c, hc, fun _ h => nomatch h⟩

/-- A token that is read, or an error that says what is wanted. -/
theorem settles_expect (kind : TokenKind) (what : Wanted) :
    SettlesReading (expect kind what) (expect kind what) c := by
  refine Settles.bind (settles_accept kind) fun t? later _ hread => ?_
  cases t? with
  | none => exact settles_fail (by simp)
  | some t => exact settles_pure (hread t rfl)

theorem settles_expectName (what : Wanted) :
    SettlesReading (expectName what) (expectName what) c :=
  (settles_expect .identifier what).bind fun _ _ _ => settles_pure trivial

theorem settles_noteExcess (count : Nat) {fault : SyntaxFault} (h : fault ≠ .outOfSteps) :
    Settles (noteExcess count fault) (noteExcess count fault) c fun _ _ => True := by
  unfold noteExcess
  split
  · exact settles_peek.bind fun _ _ _ _ => settles_note h
  · exact settles_pure trivial

theorem settles_listBefore (kind : TokenKind) {items items' : Parser (List α)}
    (hitems : Settles items items' c fun _ _ => True) :
    Settles (listBefore kind items) (listBefore kind items') c fun _ _ => True := by
  refine (settles_isNext kind).bind fun closes later _ hlater => ?_
  subst hlater
  cases closes
  · exact hitems
  · exact settles_pure trivial

theorem settles_acceptJoin (level : Level) :
    Settles (acceptJoin level) (acceptJoin level) c fun join? later =>
      ∀ join, join? = some join → later.rest.length < c.rest.length := by
  intro hc
  refine ⟨rfl, ?_⟩
  unfold acceptJoin
  rcases hrest : c.rest with _ | ⟨t, rest⟩
  · exact ⟨.refl c, hc, fun _ h => nomatch h⟩
  · rcases hjoin : level.join? t with _ | join
    · simp only [hjoin]
      exact ⟨.refl c, hc, fun _ h => nomatch h⟩
    · simp only [hjoin]
      refine ⟨⟨?_, rfl, Nat.le_refl _, List.prefix_refl _⟩, ⟨hc.stop, hc.errors⟩, ?_⟩
      · rw [hrest]
        exact List.suffix_cons t rest
      · intro _ _
        exact Nat.lt_succ_self _

/-- A token that is looked at and then read, unless it ends the source. -/
theorem settles_skip_of_ne (h : c.rest ≠ []) : SettlesReading skip skip c := by
  refine settles_skip.imp fun _ later _ hlater => ?_
  have hpos := List.length_pos_iff.mpr h
  rw [hlater, List.length_tail]
  omega

/-! ### Expressions -/

mutual

theorem settles_expression : ∀ (steps steps' : Nat) (c : Cursor),
    16 * c.rest.length + 10 ≤ min steps steps' →
    SettlesReading (expression steps) (expression steps') c
  | 0, _, _, h => by omega
  | _ + 1, 0, _, h => by omega
  | steps + 1, steps' + 1, c, h => by
    rw [expression, expression]
    have hlevels : Level.all.length = 6 := rfl
    refine (settles_joined steps steps' Level.all c (by omega)).bind fun target c₁ h₁ => ?_
    refine (settles_accept .equal).bind fun sign? c₂ _ hsign => ?_
    cases sign? with
    | none => exact settles_pure trivial
    | some sign =>
      have h₂ := hsign sign rfl
      refine (settles_expression steps steps' c₂ (by omega)).settles.bind fun value c₃ _ _ => ?_
      cases target
      case «variable» => exact settles_freshId.bind fun _ _ _ _ => settles_pure trivial
      case get => exact settles_pure trivial
      -- Any other target is an error that is noted, but not one of the budget.
      all_goals exact (settles_note (by simp)).bind fun _ _ _ _ => settles_pure trivial

theorem settles_joined : ∀ (steps steps' : Nat) (levels : List Level) (c : Cursor),
    16 * c.rest.length + 3 + levels.length ≤ min steps steps' →
    SettlesReading (joined steps levels) (joined steps' levels) c
  | 0, _, _, _, h => by omega
  | _ + 1, 0, _, _, h => by omega
  | steps + 1, steps' + 1, [], c, h => by
    rw [joined, joined]
    exact settles_unary steps steps' c (by simp only [List.length_nil] at h; omega)
  | steps + 1, steps' + 1, level :: tighter, c, h => by
    rw [joined, joined]
    simp only [List.length_cons] at h
    refine (settles_joined steps steps' tighter c (by omega)).bind fun left c₁ h₁ => ?_
    exact settles_joinedFrom steps steps' level tighter left c₁ (by omega)

theorem settles_joinedFrom : ∀ (steps steps' : Nat) (level : Level) (tighter : List Level)
    (left : Expr) (c : Cursor), 16 * c.rest.length + 1 + tighter.length ≤ min steps steps' →
    Settles (joinedFrom steps level tighter left) (joinedFrom steps' level tighter left) c
      fun _ _ => True
  | 0, _, _, _, _, _, h => by omega
  | _ + 1, 0, _, _, _, _, h => by omega
  | steps + 1, steps' + 1, level, tighter, left, c, h => by
    rw [joinedFrom, joinedFrom]
    refine (settles_acceptJoin level).bind fun join? c₁ _ hjoin => ?_
    cases join? with
    | none => exact settles_pure trivial
    | some join =>
      have h₁ := hjoin join rfl
      refine Settles.bind (settles_joined steps steps' tighter c₁ (by omega)) fun right c₂ _ h₂ => ?_
      exact settles_joinedFrom steps steps' level tighter (join left right) c₂ (by omega)

theorem settles_unary : ∀ (steps steps' : Nat) (c : Cursor),
    16 * c.rest.length + 2 ≤ min steps steps' → SettlesReading (unary steps) (unary steps') c
  | 0, _, _, h => by omega
  | _ + 1, 0, _, h => by omega
  | steps + 1, steps' + 1, c, h => by
    rw [unary, unary]
    refine (settles_accept .bang).reading fun bang? c₁ h₁ hbang => ?_
    cases bang? with
    | some bang =>
      have h₁ := hbang bang rfl
      exact (settles_unary steps steps' c₁ (by omega)).bind fun _ _ _ => settles_pure trivial
    | none =>
      refine (settles_accept .minus).reading fun minus? c₂ h₂ hminus => ?_
      cases minus? with
      | some minus =>
        have h₂ := hminus minus rfl
        exact (settles_unary steps steps' c₂ (by omega)).bind fun _ _ _ => settles_pure trivial
      | none =>
        exact (settles_primary steps steps' c₂ (by omega)).bind fun left c₃ h₃ =>
          settles_calls steps steps' left c₃ (by omega)

theorem settles_calls : ∀ (steps steps' : Nat) (left : Expr) (c : Cursor),
    16 * c.rest.length + 1 ≤ min steps steps' →
    Settles (calls steps left) (calls steps' left) c fun _ _ => True
  | 0, _, _, _, h => by omega
  | _ + 1, 0, _, _, h => by omega
  | steps + 1, steps' + 1, left, c, h => by
    rw [calls, calls]
    refine (settles_accept .leftParen).bind fun paren? c₁ h₁ hparen => ?_
    cases paren? with
    | some paren =>
      have h₁ := hparen paren rfl
      have hargs := settles_arguments steps steps' 0 c₁ (by omega)
      refine (settles_listBefore .rightParen hargs.settles).bind fun args c₂ hon₂ _ => ?_
      refine Settles.bind (settles_expect .rightParen _) fun closing c₃ _ h₃ => ?_
      have h₂ := hon₂.rest.length_le
      exact settles_calls steps steps' _ c₃ (by omega)
    | none =>
      refine (settles_accept .dot).bind fun dot? c₂ hon₂ hdot => ?_
      cases dot? with
      | some dot =>
        refine Settles.bind (settles_expectName .propertyName) fun name c₃ _ h₃ => ?_
        have h₁ := h₁.rest.length_le
        have h₂ := hon₂.rest.length_le
        exact settles_calls steps steps' _ c₃ (by omega)
      | none => exact settles_pure trivial

theorem settles_arguments : ∀ (steps steps' count : Nat) (c : Cursor),
    16 * c.rest.length + 11 ≤ min steps steps' →
    SettlesReading (arguments steps count) (arguments steps' count) c
  | 0, _, _, _, h => by omega
  | _ + 1, 0, _, _, h => by omega
  | steps + 1, steps' + 1, count, c, h => by
    rw [arguments, arguments]
    refine (settles_noteExcess count (by simp)).reading fun _ c₁ h₁ _ => ?_
    refine (settles_expression steps steps' c₁ (by omega)).bind fun argument c₂ h₂ => ?_
    refine (settles_accept .comma).bind fun comma? c₃ _ hcomma => ?_
    cases comma? with
    | none => exact settles_pure trivial
    | some comma =>
      have h₃ := hcomma comma rfl
      exact (settles_arguments steps steps' (count + 1) c₃ (by omega)).settles.bind
        fun _ _ _ _ => settles_pure trivial

theorem settles_primary : ∀ (steps steps' : Nat) (c : Cursor),
    16 * c.rest.length + 1 ≤ min steps steps' → SettlesReading (primary steps) (primary steps') c
  | 0, _, _, h => by omega
  | _ + 1, 0, _, h => by omega
  | steps + 1, steps' + 1, c, h => by
    rw [primary, primary]
    refine settles_peek.reading fun t c₁ _ ⟨hc₁, _, hend⟩ => ?_
    subst hc₁
    -- A token of any other kind than the end of the source is left to be read.
    have reading : ∀ {p p' : Parser Expr}, t.kind ≠ .eof →
        (∀ later, later.rest.length < c₁.rest.length → Settles p p' later fun _ _ => True) →
        SettlesReading (do skip; p) (do skip; p') c₁ := fun hkind hp =>
      SettlesReading.bind (settles_skip_of_ne fun hrest => hkind (hend hrest)) fun _ => hp
    split <;> rename_i hkind
    · exact reading (by simp [hkind]) fun _ _ => settles_pure trivial
    · exact reading (by simp [hkind]) fun _ _ => settles_pure trivial
    · exact reading (by simp [hkind]) fun _ _ => settles_pure trivial
    · exact reading (by simp [hkind]) fun _ _ => settles_pure trivial
    · exact reading (by simp [hkind]) fun _ _ => settles_pure trivial
    · refine reading (by simp [hkind]) fun c₂ _ => ?_
      refine (settles_expect .dot _).settles.bind fun _ c₃ _ _ => ?_
      refine (settles_expectName _).settles.bind fun method c₄ _ _ => ?_
      exact settles_freshId.bind fun _ _ _ _ => settles_pure trivial
    · exact reading (by simp [hkind]) fun _ _ =>
        settles_freshId.bind fun _ _ _ _ => settles_pure trivial
    · exact reading (by simp [hkind]) fun _ _ =>
        settles_freshId.bind fun _ _ _ _ => settles_pure trivial
    · refine reading (by simp [hkind]) fun c₂ h₂ => ?_
      refine (settles_expression steps steps' c₂ (by omega)).settles.bind fun inner c₃ _ _ => ?_
      exact (settles_expect .rightParen _).settles.bind fun _ _ _ _ => settles_pure trivial
    · exact settlesReading_fail (by simp)

end

/-! ### Parts of statements -/

/-- A token that closes what was parsed before is read. -/
theorem Settles.closed {p p' : Parser α} {r : α → β} (hp : Settles p p' c fun _ _ => True)
    (kind : TokenKind) (what : Wanted) :
    SettlesReading (do let a ← p; let _ ← expect kind what; return r a)
      (do let a ← p'; let _ ← expect kind what; return r a) c :=
  hp.reading fun _ _ _ _ => SettlesReading.bind (settles_expect kind what) fun _ _ _ =>
    settles_pure trivial

/-- Recovery always skips a token if there is one. -/
theorem resume_length_lt {tokens : List Token} (h : tokens ≠ []) :
    (resume tokens).length < tokens.length := by
  obtain ⟨t, rest, rfl⟩ := List.exists_cons_of_ne_nil h
  exact Nat.lt_succ_of_le (boundary_suffix t rest).length_le

/-- Whether a parser that reads a token succeeds or stops, recovery leaves one behind. -/
theorem length_recovering {p : Parser α} (hrest : c.rest ≠ [])
    (hp : Gives p c fun _ later => later.rest.length < c.rest.length) :
    Gives (recovering p) c fun _ later => later.rest.length < c.rest.length := by
  unfold Gives at hp ⊢
  unfold recovering
  rcases hpc : p c with ⟨a, later⟩ | ⟨e, later⟩
  · rw [hpc] at hp
    exact hp
  · rw [hpc] at hp
    refine ⟨⟨?_, hp.stop, hp.nextId, ?_⟩, ?_⟩
    · exact (resume_suffix later.rest).trans hp.rest
    · exact hp.errors.trans (List.prefix_append _ _)
    · show (resume later.rest).length < c.rest.length
      by_cases hlater : later.rest = []
      · rw [hlater]
        exact List.length_pos_iff.mpr hrest
      · exact Nat.lt_of_lt_of_le (resume_length_lt hlater) hp.rest.length_le

/-- Recovery turns an error into a note. -/
theorem settles_recovering {p p' : Parser α} (hp : SettlesReading p p' c) :
    Settles (recovering p) (recovering p') c fun _ later =>
      c.rest ≠ [] → later.rest.length < c.rest.length := by
  intro hc
  have hreads := fun hrest => length_recovering hrest (hp.gives hc)
  obtain ⟨hsame, hrun⟩ := hp hc
  unfold Gives at hreads
  unfold recovering at hreads ⊢
  rcases hpc : p c with ⟨a, later⟩ | ⟨e, later⟩
  · rw [hpc] at hsame hrun
    rw [hsame]
    exact ⟨rfl, hrun.1, hrun.2.1, fun _ => hrun.2.2⟩
  · rw [hpc] at hsame hrun hreads
    obtain ⟨hon, hunspent, hfault⟩ := hrun
    rw [hsame]
    refine ⟨rfl, ⟨?_, hon.stop, hon.nextId, ?_⟩, ⟨hunspent.stop, ?_⟩, fun hrest => (hreads hrest).2⟩
    · exact (resume_suffix later.rest).trans hon.rest
    · exact hon.errors.trans (List.prefix_append _ _)
    · exact (hunspent.note hfault).errors

section Parts

variable {steps steps' : Nat}

theorem settles_expressionBefore (kind : TokenKind)
    (h : 16 * c.rest.length + 10 ≤ min steps steps') :
    Settles (expressionBefore steps kind) (expressionBefore steps' kind) c fun _ _ => True := by
  refine (settles_isNext kind).bind fun isNext later _ hlater => ?_
  subst hlater
  cases isNext
  · exact (settles_expression steps steps' later h).settles.bind fun _ _ _ _ => settles_pure trivial
  · exact settles_pure trivial

theorem settles_initializer (h : 16 * c.rest.length + 10 ≤ min steps steps') :
    Settles (initializer steps) (initializer steps') c fun _ _ => True := by
  refine (settles_accept .equal).bind fun sign? c₁ hon₁ _ => ?_
  have h₁ := hon₁.rest.length_le
  cases sign? with
  | none => exact settles_pure trivial
  | some sign =>
    exact (settles_expression steps steps' c₁ (by omega)).settles.bind fun _ _ _ _ =>
      settles_pure trivial

theorem settles_varDeclaration (h : 16 * c.rest.length + 10 ≤ min steps steps') :
    SettlesReading (varDeclaration steps) (varDeclaration steps') c :=
  SettlesReading.bind (settles_expectName _) fun _ _ h₁ =>
    ((settles_initializer (by omega)).closed _ _).settles

theorem settles_expressionStatement (h : 16 * c.rest.length + 10 ≤ min steps steps') :
    SettlesReading (expressionStatement steps) (expressionStatement steps') c :=
  (settles_expression steps steps' c h).settles.closed _ _

theorem settles_printStatement (h : 16 * c.rest.length + 10 ≤ min steps steps') :
    SettlesReading (printStatement steps) (printStatement steps') c :=
  (settles_expression steps steps' c h).settles.closed _ _

theorem settles_returnStatement (line : Nat) (h : 16 * c.rest.length + 10 ≤ min steps steps') :
    SettlesReading (returnStatement steps line) (returnStatement steps' line) c :=
  (settles_expressionBefore .semicolon h).closed _ _

theorem settles_forInitializer (h : 16 * c.rest.length + 10 ≤ min steps steps') :
    Settles (forInitializer steps) (forInitializer steps') c fun _ _ => True := by
  refine (settles_accept .semicolon).bind fun semicolon? c₁ hon₁ _ => ?_
  have h₁ := hon₁.rest.length_le
  cases semicolon? with
  | some _ => exact settles_pure trivial
  | none =>
    refine (settles_accept .kwVar).bind fun keyword? c₂ hon₂ _ => ?_
    have h₂ := hon₂.rest.length_le
    cases keyword? with
    | some _ =>
      exact (settles_varDeclaration (by omega)).settles.bind fun _ _ _ _ => settles_pure trivial
    | none =>
      exact (settles_expressionStatement (by omega)).settles.bind fun _ _ _ _ =>
        settles_pure trivial

theorem settles_superclassClause :
    Settles superclassClause superclassClause c fun _ _ => True := by
  refine (settles_accept .less).bind fun sign? c₁ _ _ => ?_
  cases sign? with
  | none => exact settles_pure trivial
  | some _ =>
    exact (settles_expectName _).settles.bind fun _ _ _ _ =>
      settles_freshId.bind fun _ _ _ _ => settles_pure trivial

theorem settles_parameters : ∀ (steps steps' count : Nat) (c : Cursor),
    16 * c.rest.length + 1 ≤ min steps steps' →
    Settles (parameters steps count) (parameters steps' count) c fun _ _ => True
  | 0, _, _, _, h => by omega
  | _ + 1, 0, _, _, h => by omega
  | steps + 1, steps' + 1, count, c, h => by
    rw [parameters, parameters]
    refine (settles_noteExcess count (by simp)).bind fun _ c₁ hon₁ _ => ?_
    have h₁ := hon₁.rest.length_le
    refine Settles.bind (settles_expectName _) fun name c₂ _ h₂ => ?_
    refine (settles_accept .comma).bind fun comma? c₃ hon₃ _ => ?_
    have h₃ := hon₃.rest.length_le
    cases comma? with
    | none => exact settles_pure trivial
    | some _ =>
      exact (settles_parameters steps steps' (count + 1) c₃ (by omega)).bind fun _ _ _ _ =>
        settles_pure trivial

end Parts

/-! ### Statements -/

mutual

theorem settles_declaration : ∀ (steps steps' : Nat) (c : Cursor),
    16 * c.rest.length + 12 ≤ min steps steps' →
    SettlesReading (declaration steps) (declaration steps') c
  | 0, _, _, h => by omega
  | _ + 1, 0, _, h => by omega
  | steps + 1, steps' + 1, c, h => by
    rw [declaration, declaration]
    refine (settles_accept .kwClass).reading fun class? c₁ h₁ hclass => ?_
    cases class? with
    | some token =>
      have h₁ := hclass token rfl
      exact settles_classDeclaration steps steps' c₁ (by omega)
    | none =>
      refine (settles_accept .kwFun).reading fun fun? c₂ h₂ hfun => ?_
      cases fun? with
      | some token =>
        have h₂ := hfun token rfl
        exact (settles_function steps steps' .function c₂ (by omega)).bind fun _ _ _ =>
          settles_pure trivial
      | none =>
        refine (settles_accept .kwVar).reading fun var? c₃ h₃ hvar => ?_
        cases var? with
        | some token =>
          have h₃ := hvar token rfl
          exact settles_varDeclaration (by omega)
        | none => exact settles_statement steps steps' c₃ (by omega)

theorem settles_classDeclaration : ∀ (steps steps' : Nat) (c : Cursor),
    16 * c.rest.length + 1 ≤ min steps steps' →
    SettlesReading (classDeclaration steps) (classDeclaration steps') c
  | 0, _, _, h => by omega
  | _ + 1, 0, _, h => by omega
  | steps + 1, steps' + 1, c, h => by
    rw [classDeclaration, classDeclaration]
    refine (settles_expectName _).bind fun name c₁ h₁ => ?_
    refine settles_superclassClause.bind fun superclass c₂ hon₂ _ => ?_
    have h₂ := hon₂.rest.length_le
    refine Settles.bind (settles_expect .leftBrace _) fun _ c₃ _ h₃ => ?_
    exact ((settles_methods steps steps' c₃ (by omega)).closed .rightBrace _).settles

theorem settles_methods : ∀ (steps steps' : Nat) (c : Cursor),
    16 * c.rest.length + 2 ≤ min steps steps' →
    Settles (methods steps) (methods steps') c fun _ _ => True
  | 0, _, _, h => by omega
  | _ + 1, 0, _, h => by omega
  | steps + 1, steps' + 1, c, h => by
    rw [methods, methods]
    refine (settles_isNext .rightBrace).bind fun closing c₁ _ hc₁ => ?_
    subst hc₁
    refine settles_isAtEnd.bind fun atEnd c₂ _ ⟨hc₂, _⟩ => ?_
    subst hc₂
    split
    · exact settles_pure trivial
    · refine Settles.bind (settles_function steps steps' .method c₂ (by omega))
        fun method c₃ _ h₃ => ?_
      exact (settles_methods steps steps' c₃ (by omega)).bind fun _ _ _ _ => settles_pure trivial

theorem settles_function : ∀ (steps steps' : Nat) (form : FunctionForm) (c : Cursor),
    16 * c.rest.length + 1 ≤ min steps steps' →
    SettlesReading (function steps form) (function steps' form) c
  | 0, _, _, _, h => by omega
  | _ + 1, 0, _, _, h => by omega
  | steps + 1, steps' + 1, form, c, h => by
    rw [function, function]
    refine (settles_expectName _).bind fun name c₁ h₁ => ?_
    refine Settles.bind (settles_expect .leftParen _) fun _ c₂ _ h₂ => ?_
    have hparams := settles_parameters steps steps' 0 c₂ (by omega)
    refine (settles_listBefore .rightParen hparams).bind fun params c₃ hon₃ _ => ?_
    have h₃ := hon₃.rest.length_le
    refine Settles.bind (settles_expect .rightParen _) fun _ c₄ _ h₄ => ?_
    refine Settles.bind (settles_expect .leftBrace _) fun _ c₅ _ h₅ => ?_
    exact (settles_block steps steps' c₅ (by omega)).settles.bind fun _ _ _ _ =>
      settles_pure trivial

theorem settles_block : ∀ (steps steps' : Nat) (c : Cursor),
    16 * c.rest.length + 14 ≤ min steps steps' → SettlesReading (block steps) (block steps') c
  | 0, _, _, h => by omega
  | _ + 1, 0, _, h => by omega
  | steps + 1, steps' + 1, c, h => by
    rw [block, block]
    have hbody := settles_declarations steps steps' true c (by omega)
    exact (hbody.imp fun _ _ _ _ => trivial).closed .rightBrace _

/-- Declarations that are not those of a block go on to the end of the source. -/
theorem settles_declarations : ∀ (steps steps' : Nat) (inBlock : Bool) (c : Cursor),
    16 * c.rest.length + 13 ≤ min steps steps' →
    Settles (declarations steps inBlock) (declarations steps' inBlock) c fun _ later =>
      inBlock = false → later.rest = []
  | 0, _, _, _, h => by omega
  | _ + 1, 0, _, _, h => by omega
  | steps + 1, steps' + 1, inBlock, c, h => by
    rw [declarations, declarations]
    refine (settles_isNext .rightBrace).bind fun closing c₁ _ hc₁ => ?_
    subst hc₁
    refine settles_isAtEnd.bind fun atEnd c₂ _ ⟨hc₂, hatEnd⟩ => ?_
    subst hc₂
    split
    · rename_i hstops
      refine settles_pure fun houter => hatEnd.mp ?_
      simpa [houter] using hstops
    · rename_i hgoes
      have hrest : c₂.rest ≠ [] := fun hnil => hgoes (by simp [hatEnd.mpr hnil])
      have hfirst := settles_declaration steps steps' c₂ (by omega)
      refine (settles_recovering hfirst).bind fun first c₃ _ h₃ => ?_
      have h₃ := h₃ hrest
      exact (settles_declarations steps steps' inBlock c₃ (by omega)).bind fun _ _ _ hlast =>
        settles_pure hlast

theorem settles_statement : ∀ (steps steps' : Nat) (c : Cursor),
    16 * c.rest.length + 11 ≤ min steps steps' →
    SettlesReading (statement steps) (statement steps') c
  | 0, _, _, h => by omega
  | _ + 1, 0, _, h => by omega
  | steps + 1, steps' + 1, c, h => by
    rw [statement, statement]
    refine settles_peek.reading fun t c₁ _ ⟨hc₁, _, hend⟩ => ?_
    subst hc₁
    have behind : ∀ {p p' : Parser Stmt}, t.kind ≠ .eof →
        (∀ later, later.rest.length < c₁.rest.length → SettlesReading p p' later) →
        SettlesReading (do skip; p) (do skip; p') c₁ := fun hkind hp =>
      SettlesReading.bind (settles_skip_of_ne fun hrest => hkind (hend hrest)) fun _ later h =>
        (hp later h).settles
    split <;> rename_i hkind
    · exact behind (by simp [hkind]) fun c₂ h₂ => settles_forStatement steps steps' c₂ (by omega)
    · exact behind (by simp [hkind]) fun c₂ h₂ => settles_ifStatement steps steps' c₂ (by omega)
    · exact behind (by simp [hkind]) fun c₂ h₂ => settles_printStatement (by omega)
    · exact behind (by simp [hkind]) fun c₂ h₂ => settles_returnStatement t.line (by omega)
    · exact behind (by simp [hkind]) fun c₂ h₂ => settles_whileStatement steps steps' c₂ (by omega)
    · exact behind (by simp [hkind]) fun c₂ h₂ =>
        (settles_block steps steps' c₂ (by omega)).bind fun _ _ _ => settles_pure trivial
    · exact settles_expressionStatement (by omega)

theorem settles_forStatement : ∀ (steps steps' : Nat) (c : Cursor),
    16 * c.rest.length + 1 ≤ min steps steps' →
    SettlesReading (forStatement steps) (forStatement steps') c
  | 0, _, _, h => by omega
  | _ + 1, 0, _, h => by omega
  | steps + 1, steps' + 1, c, h => by
    rw [forStatement, forStatement]
    refine (settles_expect .leftParen _).bind fun _ c₁ h₁ => ?_
    refine (settles_forInitializer (by omega)).bind fun initializer c₂ hon₂ _ => ?_
    have h₂ := hon₂.rest.length_le
    refine (settles_expressionBefore .semicolon (by omega)).bind fun condition c₃ hon₃ _ => ?_
    have h₃ := hon₃.rest.length_le
    refine Settles.bind (settles_expect .semicolon _) fun _ c₄ _ h₄ => ?_
    refine (settles_expressionBefore .rightParen (by omega)).bind fun increment c₅ hon₅ _ => ?_
    have h₅ := hon₅.rest.length_le
    refine Settles.bind (settles_expect .rightParen _) fun _ c₆ _ h₆ => ?_
    exact (settles_statement steps steps' c₆ (by omega)).settles.bind fun _ _ _ _ =>
      settles_pure trivial

theorem settles_ifStatement : ∀ (steps steps' : Nat) (c : Cursor),
    16 * c.rest.length + 1 ≤ min steps steps' →
    SettlesReading (ifStatement steps) (ifStatement steps') c
  | 0, _, _, h => by omega
  | _ + 1, 0, _, h => by omega
  | steps + 1, steps' + 1, c, h => by
    rw [ifStatement, ifStatement]
    refine (settles_expect .leftParen _).bind fun _ c₁ h₁ => ?_
    refine Settles.bind (settles_expression steps steps' c₁ (by omega)) fun condition c₂ _ h₂ => ?_
    refine Settles.bind (settles_expect .rightParen _) fun _ c₃ _ h₃ => ?_
    refine Settles.bind (settles_statement steps steps' c₃ (by omega)) fun thenBranch c₄ _ h₄ => ?_
    refine (settles_accept .kwElse).bind fun else? c₅ hon₅ _ => ?_
    have h₅ := hon₅.rest.length_le
    cases else? with
    | none => exact settles_pure trivial
    | some _ =>
      exact (settles_statement steps steps' c₅ (by omega)).settles.bind fun _ _ _ _ =>
        settles_pure trivial

theorem settles_whileStatement : ∀ (steps steps' : Nat) (c : Cursor),
    16 * c.rest.length + 1 ≤ min steps steps' →
    SettlesReading (whileStatement steps) (whileStatement steps') c
  | 0, _, _, h => by omega
  | _ + 1, 0, _, h => by omega
  | steps + 1, steps' + 1, c, h => by
    rw [whileStatement, whileStatement]
    refine (settles_expect .leftParen _).bind fun _ c₁ h₁ => ?_
    refine Settles.bind (settles_expression steps steps' c₁ (by omega)) fun condition c₂ _ h₂ => ?_
    refine Settles.bind (settles_expect .rightParen _) fun _ c₃ _ h₃ => ?_
    exact (settles_statement steps steps' c₃ (by omega)).settles.bind fun _ _ _ _ =>
      settles_pure trivial

end

theorem settles_wholeExpression {steps steps' : Nat}
    (h : 16 * c.rest.length + 10 ≤ min steps steps') :
    SettlesReading (wholeExpression steps) (wholeExpression steps') c := by
  refine (settles_expression steps steps' c h).bind fun value c₁ h₁ => ?_
  refine settles_isAtEnd.bind fun atEnd c₂ _ _ => ?_
  split
  · exact settles_pure trivial
  · exact settles_fail (by simp)

end Parser

end Treewalk
