import Treewalk.Proofs.Syntax.Continuation

/-!
# Programs one behind the other

**Two sources with a line feed between them are read as the program of the one followed by that of
the other.**  The second program stands further down, and its references are numbered after those
of the first.  What could go wrong at the seam is a last statement that goes on: only an `else`
can continue one, and no program starts with it.
-/

namespace Treewalk

namespace Parser

variable {ι : Embedding} {α β : Type}

/-! ### No program starts with `else` -/

section Else

variable {c : Cursor} {t : Token} {rest : List Token}

theorem kind_of_sameForm_else {kind : TokenKind} (h : kind.sameForm .kwElse = true) :
    kind = .kwElse := by
  cases kind <;> first | rfl | cases h

/-- Where no other token is taken, an optional one is passed over. -/
theorem refuses_of_accept {kind : TokenKind} {f : Option Token → Parser β} (hrest : c.rest = t :: rest)
    (hkind : ¬ t.kind.sameForm kind = true) (h : Refuses (f none) c) :
    Refuses (accept kind >>= f) c := by
  unfold Refuses Gives at h ⊢
  rw [bind_of_ok (accept_of_not_sameForm hrest hkind)]
  exact h

theorem refuses_primary (hrest : c.rest = t :: rest) (hkind : t.kind = .kwElse) (steps : Nat) :
    Refuses (primary steps) c := by
  rcases steps with _ | steps
  · exact gives_fail _
  · rw [primary]
    refine gives_peek.bind fun found later _ hlater => ?_
    obtain ⟨rfl, rfl⟩ := hlater
    have hnext : later.next.kind = .kwElse := by
      unfold Cursor.next
      rw [hrest]
      exact hkind
    rw [hnext]
    exact gives_fail _

theorem refuses_unary (hrest : c.rest = t :: rest) (hkind : t.kind = .kwElse) (steps : Nat) :
    Refuses (unary steps) c := by
  rcases steps with _ | steps
  · exact gives_fail _
  · rw [unary]
    refine refuses_of_accept hrest (by rw [hkind]; decide) ?_
    refine refuses_of_accept hrest (by rw [hkind]; decide) ?_
    exact (refuses_primary hrest hkind steps).bind _

theorem refuses_joined (hrest : c.rest = t :: rest) (hkind : t.kind = .kwElse) (steps : Nat)
    (levels : List Level) : Refuses (joined steps levels) c := by
  induction steps generalizing levels with
  | zero => exact gives_fail _
  | succ steps ih =>
    rcases levels with _ | ⟨level, tighter⟩
    · rw [joined]
      exact refuses_unary hrest hkind steps
    · rw [joined]
      exact (ih tighter).bind _

theorem refuses_expression (hrest : c.rest = t :: rest) (hkind : t.kind = .kwElse) (steps : Nat) :
    Refuses (expression steps) c := by
  rcases steps with _ | steps
  · exact gives_fail _
  · rw [expression]
    exact (refuses_joined hrest hkind steps Level.all).bind _

theorem refuses_declaration (hrest : c.rest = t :: rest) (hkind : t.kind = .kwElse) (steps : Nat) :
    Refuses (declaration steps) c := by
  rcases steps with _ | steps
  · exact gives_fail _
  rw [declaration]
  refine refuses_of_accept hrest (by rw [hkind]; decide) ?_
  refine refuses_of_accept hrest (by rw [hkind]; decide) ?_
  refine refuses_of_accept hrest (by rw [hkind]; decide) ?_
  rcases steps with _ | steps
  · exact gives_fail _
  dsimp only
  rw [statement]
  refine gives_peek.bind fun found later _ hlater => ?_
  obtain ⟨rfl, rfl⟩ := hlater
  have hnext : later.next.kind = .kwElse := by
    unfold Cursor.next
    rw [hrest]
    exact hkind
  rw [hnext]
  exact (refuses_expression hrest hkind steps).bind _

end Else

/-! ### The statements of a program -/

theorem recovering_of_ok {p : Parser α} {c later : Cursor} {a : α} (h : p c = .ok a later) :
    recovering p c = .ok (some a) later := by
  simp only [recovering, h]

theorem declarations_of_nil {steps : Nat} {c : Cursor} (hrest : c.rest = []) :
    declarations (steps + 1) false c = .ok [] c := by
  rw [declarations, bind_of_ok (show isNext .rightBrace c = .ok _ c from rfl),
    bind_of_ok (show isAtEnd c = .ok true c by simp [isAtEnd, hrest])]
  rfl

theorem declarations_of_cons {steps : Nat} {c : Cursor} {t : Token} {rest : List Token}
    (hrest : c.rest = t :: rest) :
    declarations (steps + 1) false c
      = (do
          let first ← recovering (declaration steps)
          let others ← declarations steps false
          return first.toList ++ others) c := by
  rw [declarations, bind_of_ok (show isNext .rightBrace c = .ok _ c from rfl),
    bind_of_ok (show isAtEnd c = .ok false c by simp [isAtEnd, hrest])]
  rfl

theorem advances_declaration (steps : Nat) : Advances (declaration steps) :=
  (whole_declaration steps steps (Nat.le_refl _) (ι := ⟨id, 0, []⟩)).advances

theorem advances_declarations (steps : Nat) (inBlock : Bool) :
    Advances (declarations steps inBlock) :=
  (mirrors_declarations steps steps (Nat.le_refl _) inBlock (ι := ⟨id, 0, []⟩)).advances

theorem Advances.onward {p : Parser α} {c later : Cursor} {a : α} (h : Advances p)
    (hrun : p c = .ok a later) : c.Onward later := by
  have hc := h c
  unfold Gives at hc
  rw [hrun] at hc
  exact hc.1

/-- Without errors, every statement of a program is read by itself. -/
theorem declarations_cons {steps : Nat} {c later : Cursor} {t : Token} {rest : List Token}
    {body : List Stmt} (hrest : c.rest = t :: rest)
    (h : declarations (steps + 1) false c = .ok body later) (hquiet : later.errors = c.errors) :
    ∃ s middle others, declaration steps c = .ok s middle
      ∧ declarations steps false middle = .ok others later ∧ body = s :: others
      ∧ middle.errors = c.errors ∧ later.errors = middle.errors := by
  rw [declarations_of_cons hrest] at h
  have hdeclaration := advances_declaration steps c
  unfold Gives at hdeclaration
  rcases hrun : declaration steps c with ⟨s, middle⟩ | ⟨e, middle⟩ <;> rw [hrun] at hdeclaration
  · rw [bind_of_ok (recovering_of_ok hrun)] at h
    obtain ⟨others, last, hothers, hreturn⟩ := ok_of_bind_eq_ok h
    cases hreturn
    have hlast := Advances.onward (advances_declarations steps false) hothers
    obtain ⟨hquiet₁, hquiet₂⟩ := quiet_parts hquiet hdeclaration.1 hlast
    exact ⟨s, middle, others, rfl, hothers, rfl, hquiet₁, hquiet₂⟩
  · -- An error has been noted, and errors are never taken back.
    rw [bind_of_ok (show recovering (declaration steps) c
      = .ok none { middle.note e with rest := resume middle.rest } by
        simp [recovering, hrun])] at h
    obtain ⟨others, last, hothers, hreturn⟩ := ok_of_bind_eq_ok h
    cases hreturn
    have hlength := (Advances.onward (advances_declarations steps false) hothers).errors.length_le
    have hbefore := hdeclaration.errors.length_le
    rw [hquiet] at hlength
    simp only [Cursor.note, List.length_append, List.length_singleton] at hlength
    omega

/-- A program that is read without errors starts with something else. -/
theorem head_of_declarations {steps : Nat} {c later : Cursor} {body : List Stmt}
    (h : declarations steps false c = .ok body later) (hquiet : later.errors = c.errors) :
    ∀ t ∈ c.rest.head?, t.kind.sameForm .kwElse = false := by
  intro t ht
  rcases hrest : c.rest with _ | ⟨first, rest⟩ <;> rw [hrest] at ht <;> cases ht
  rcases steps with _ | steps
  · cases h
  obtain ⟨s, middle, others, hdeclaration, -⟩ := declarations_cons hrest h hquiet
  rcases hkind : t.kind.sameForm .kwElse with _ | _
  · rfl
  · have hrefuses := refuses_declaration hrest (kind_of_sameForm_else hkind) steps
    unfold Refuses Gives at hrefuses
    rw [hdeclaration] at hrefuses
    exact hrefuses.2.elim

/-- The rest of a program is read with what steps are left when its first part has been read. -/
theorem declarations_append (hι : ι.NoElse) {steps steps' : Nat} {c later d : Cursor}
    {body : List Stmt} (hle : steps ≤ steps') (hd : c.Inside ι d)
    (h : declarations steps false c = .ok body later) (hquiet : later.errors = c.errors) :
    ∃ left middle, steps' ≤ left + c.rest.length ∧ later.rest = [] ∧ later.Inside ι middle
      ∧ declarations steps' false d
        = (declarations left false >>= fun others =>
            pure (moveStatements ι.shift body ++ others)) middle := by
  induction steps generalizing steps' c d body with
  | zero => cases h
  | succ steps ih =>
    rcases hrest : c.rest with _ | ⟨t, rest⟩
    · rw [declarations_of_nil hrest] at h
      cases h
      refine ⟨steps', d, Nat.le_refl _, hrest, hd, ?_⟩
      rcases hrun : declarations steps' false d with ⟨others, last⟩ | ⟨e, last⟩
      · rw [bind_of_ok hrun]
        rfl
      · rw [bind_of_error hrun]
    · obtain ⟨s, c₁, others, hdeclaration, hothers, rfl, hquiet₁, hquiet₂⟩ :=
        declarations_cons hrest h hquiet
      obtain ⟨steps', rfl⟩ : ∃ n, steps' = n + 1 := ⟨steps' - 1, by omega⟩
      have hwhole := whole_declaration (ι := ι) steps steps' (Nat.le_of_succ_le_succ hle)
      have hrun := hwhole.mirrors c
      have hread := hwhole.reads c
      unfold Gives at hrun hread
      rw [hdeclaration] at hrun hread
      obtain ⟨d₁, hdeclaration', hd₁⟩ := hrun.2 d hd hquiet₁ (Or.inr hι)
      obtain ⟨left, middle, hleft, hend, hmiddle, hsplit⟩ :=
        ih (Nat.le_of_succ_le_succ hle) hd₁ hothers hquiet₂
      refine ⟨left, middle, ?_, hend, hmiddle, ?_⟩
      · have hlt := hread.2
        rw [hrest] at hlt
        omega
      · rw [declarations_of_cons (inside_cons hd hrest).1,
          bind_of_ok (recovering_of_ok hdeclaration')]
        rcases hlast : declarations left false middle with ⟨others', last⟩ | ⟨e, last⟩
        · rw [bind_of_ok hlast] at hsplit ⊢
          rw [bind_of_ok hsplit]
          rfl
        · rw [bind_of_error hlast] at hsplit ⊢
          rw [bind_of_error hsplit]

end Parser

namespace Cursor

/-! ### Whole programs -/

theorem start_of_tokens {ts : List Token} {stop : Token} (hnot : ∀ t ∈ ts, t.isEnd = false)
    (hstop : stop.isEnd = true) (first : Nat) :
    start (ts ++ [stop]) first = ⟨ts, stop, first, []⟩ := by
  have hfind : ts.find? Token.isEnd = none :=
    List.find?_eq_none.mpr fun t ht => by rw [hnot t ht]; simp
  rw [start, List.takeWhile_append_of_pos fun t ht => by rw [hnot t ht]; rfl, List.find?_append,
    hfind]
  simp [hstop]

theorem start_eq (source : String) (first : Nat) :
    start (tokens source) first = ⟨ownTokens source, ⟨.eof, "", lineCount source⟩, first, []⟩ := by
  rw [tokens_eq]
  exact start_of_tokens (fun _ => isEnd_of_mem_ownTokens) rfl first

/-- The cursor in front of two sources. -/
theorem start_seam {source : String} (h : lexicalErrors source = []) (later : String) (first : Nat) :
    start (tokens (source ++ "\n" ++ later)) first
      = ⟨ownTokens source ++ (ownTokens later).map (Token.move (· + lineCount source)),
        (⟨.eof, "", lineCount later⟩ : Token).move (· + lineCount source), first, []⟩ := by
  rw [tokens_seam h, tokens_eq later, List.map_append, ← List.append_assoc]
  refine start_of_tokens (fun t ht => ?_) rfl first
  rcases List.mem_append.mp ht with ht | ht
  · exact isEnd_of_mem_ownTokens ht
  · obtain ⟨t', ht', rfl⟩ := List.mem_map.mp ht
    rw [Token.isEnd_move]
    exact isEnd_of_mem_ownTokens ht'

variable {c later : Cursor} {program : Program}

theorem program_of_ok (hc : c.errors = [])
    (h : Parser.declarations c.steps false c = .ok program later) (hquiet : later.errors = []) :
    c.program = (program, [], later) := by
  rcases c with ⟨rest, stop, nextId, errors⟩
  rcases later with ⟨rest', stop', nextId', errors'⟩
  cases hc
  cases hquiet
  simp only [Cursor.program, Cursor.run, h]
  rfl

theorem ok_of_program (hc : c.errors = []) (h : c.program = (program, [], later)) :
    Parser.declarations c.steps false c = .ok program later ∧ later.errors = [] := by
  rcases c with ⟨rest, stop, nextId, errors⟩
  cases hc
  rcases hrun : Parser.declarations (Cursor.steps ⟨rest, stop, nextId, []⟩) false
    ⟨rest, stop, nextId, []⟩ with ⟨body, ⟨rest', stop', nextId', errors'⟩⟩ | ⟨e, after⟩
  · simp only [Cursor.program, Cursor.run, hrun, Option.getD_some, Prod.mk.injEq] at h
    obtain ⟨rfl, rfl, rfl⟩ := h
    exact ⟨rfl, rfl⟩
  · simp [Cursor.program, Cursor.run, hrun] at h

/-- A program that is read without errors is read in the same way on other lines and with other
numbers. -/
theorem program_moved {ι : Embedding} {d : Cursor} (hmore : ι.more = []) (hc : c.errors = [])
    (hd : c.Inside ι d) (h : c.program = (program, [], later)) :
    ∃ e, d.program = (moveStatements ι.shift program, [], e) ∧ later.Inside ι e := by
  obtain ⟨hrun, hquiet⟩ := ok_of_program hc h
  have hsteps : d.steps = c.steps := by
    simp only [Cursor.steps, hd.rest, hmore, List.append_nil, List.length_map]
  have hmirrors := Parser.mirrors_declarations (ι := ι) c.steps c.steps (Nat.le_refl _) false c
  unfold Parser.Gives at hmirrors
  rw [hrun] at hmirrors
  obtain ⟨e, hrun', he⟩ := hmirrors.2 d hd (hquiet.trans hc.symm) (Or.inr hmore)
  refine ⟨e, program_of_ok (hd.errors.trans hc) ?_ (he.errors.trans hquiet), he⟩
  rw [hsteps]
  exact hrun'

/-- Two programs that are read without errors are read so one behind the other. -/
theorem program_seam {source next : String} {first : Nat} {rest : Program} {last : Cursor}
    (hlexical : lexicalErrors source = [])
    (h : (start (tokens source) first).program = (program, [], later))
    (hnext : (start (tokens next) later.nextId).program = (rest, [], last)) :
    ∃ e, (start (tokens (source ++ "\n" ++ next)) first).program
        = (program ++ moveStatements (.ofLines (· + lineCount source)) rest, [], e)
      ∧ e.nextId = last.nextId := by
  rw [start_eq] at h hnext
  rw [start_seam hlexical]
  obtain ⟨hrun, hquiet⟩ := ok_of_program rfl h
  obtain ⟨hrun', hquiet'⟩ := ok_of_program rfl hnext
  -- The first source, and behind it the second.
  let ι : Embedding :=
    ⟨fun line => line, 0, (ownTokens next).map (Token.move (· + lineCount source))⟩
  have hsame : ι.shift = .same := rfl
  have hnoElse : ι.NoElse := by
    intro t ht
    have hhead := Parser.head_of_declarations hrun' hquiet'
    rcases hnext : ownTokens next with _ | ⟨t', ts⟩ <;> simp only [ι, hnext] at ht hhead <;> cases ht
    exact hhead t' rfl
  let c : Cursor := ⟨ownTokens source, ⟨.eof, "", lineCount source⟩, first, []⟩
  let d : Cursor :=
    ⟨ownTokens source ++ ι.more, (⟨.eof, "", lineCount next⟩ : Token).move (· + lineCount source),
      first, []⟩
  have hinside : c.Inside ι d := by
    refine ⟨?_, rfl, rfl, rfl⟩
    have hmove : Token.move ι.line = id := rfl
    rw [hmove, List.map_id]
  have hsteps : c.steps ≤ d.steps := by
    simp only [Cursor.steps, c, d, List.length_append]
    omega
  obtain ⟨left, middle, hleft, hend, hmiddle, hsplit⟩ :=
    Parser.declarations_append hnoElse hsteps hinside hrun hquiet
  -- The second source by itself, and further down.
  let κ : Embedding := ⟨fun line => line + lineCount source, 0, []⟩
  let c' : Cursor := ⟨ownTokens next, ⟨.eof, "", lineCount next⟩, later.nextId, []⟩
  have hinside' : c'.Inside κ middle := by
    refine ⟨?_, rfl, hmiddle.nextId, hmiddle.errors.trans hquiet⟩
    rw [hmiddle.rest, hend]
    exact (List.append_nil _).symm
  have hleft' : c'.steps ≤ left := by
    simp only [Cursor.steps, c, c', d, ι, List.length_append, List.length_map] at hleft ⊢
    omega
  have hmirrors := Parser.mirrors_declarations (ι := κ) c'.steps left hleft' false c'
  unfold Parser.Gives at hmirrors
  rw [hrun'] at hmirrors
  obtain ⟨e, hrest, he⟩ := hmirrors.2 middle hinside' hquiet' (Or.inr rfl)
  refine ⟨e, program_of_ok rfl ?_ (he.errors.trans hquiet'), he.nextId⟩
  rw [bind_of_ok hrest, hsame, moveStatements_same] at hsplit
  exact hsplit

end Cursor

end Treewalk
