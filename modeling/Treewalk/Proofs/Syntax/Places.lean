import Treewalk.Proofs.Binding.Sites
import Treewalk.Proofs.Evaluation.ForLoops

/-!
# Places of errors

**Tokens that stand each on a line of its own show by these lines where something was found.**  The
parser copies lines and never looks at them, so they may stand for the places of the tokens in the
source.

Two things come late.  Whether the target of an assignment is one is asked when the value has been
read; so this error comes behind those of the value, although its sign stands before them.  And the
increment of a `for` goes behind the body, in the tree that is made of the clauses.
-/

namespace Treewalk

/-! ### Lists in the order of places -/

section Lists

variable {β : Type} {place : β → Nat} {late late' : β → β → Prop} {first middle last : Nat}
variable {xs ys : List β}

/-- Items at places from `first` to `last`.  One that comes behind another in the list stands behind
    it in the source as well, unless it is late. -/
structure InOrder (place : β → Nat) (late : β → β → Prop) (first last : Nat) (items : List β) :
    Prop where
  lower : ∀ b ∈ items, first ≤ place b
  upper : ∀ b ∈ items, place b ≤ last
  pairs : items.Pairwise fun a b => place a ≤ place b ∨ late a b

theorem inOrder_nil : InOrder place late first last [] where
  lower _ h := nomatch h
  upper _ h := nomatch h
  pairs := .nil

theorem inOrder_singleton {b : β} (hfirst : first ≤ place b) (hlast : place b ≤ last) :
    InOrder place late first last [b] where
  lower := List.forall_mem_singleton.mpr hfirst
  upper := List.forall_mem_singleton.mpr hlast
  pairs := List.pairwise_singleton _ b

theorem InOrder.mono (h : InOrder place late first last xs) (hlate : ∀ a b, late a b → late' a b)
    {first' last' : Nat} (hfirst : first' ≤ first) (hlast : last ≤ last') :
    InOrder place late' first' last' xs where
  lower b hb := Nat.le_trans hfirst (h.lower b hb)
  upper b hb := Nat.le_trans (h.upper b hb) hlast
  pairs := h.pairs.imp fun hab => hab.imp_right (hlate _ _)

theorem InOrder.sublist (h : InOrder place late first last xs) (hys : ys.Sublist xs) :
    InOrder place late first last ys where
  lower b hb := h.lower b (hys.subset hb)
  upper b hb := h.upper b (hys.subset hb)
  pairs := h.pairs.sublist hys

/-- Two lists in a row, of which the second stands behind the first or is late. -/
theorem InOrder.concat (hxs : InOrder place late first last xs)
    (hys : InOrder place late first last ys)
    (h : ∀ a ∈ xs, ∀ b ∈ ys, place a ≤ place b ∨ late a b) :
    InOrder place late first last (xs ++ ys) where
  lower := List.forall_mem_append.mpr ⟨hxs.lower, hys.lower⟩
  upper := List.forall_mem_append.mpr ⟨hxs.upper, hys.upper⟩
  pairs := List.pairwise_append.mpr ⟨hxs.pairs, hys.pairs, h⟩

theorem InOrder.append (hxs : InOrder place late first middle xs)
    (hys : InOrder place late middle last ys) (hfirst : first ≤ middle) (hlast : middle ≤ last) :
    InOrder place late first last (xs ++ ys) :=
  (hxs.mono (fun _ _ h => h) (Nat.le_refl _) hlast).concat
    (hys.mono (fun _ _ h => h) hfirst (Nat.le_refl _))
    fun a ha b hb => Or.inl (Nat.le_trans (hxs.upper a ha) (hys.lower b hb))

end Lists

/-! ### Cursors on places -/

namespace Cursor

/-- The place of the next token. -/
def place (c : Cursor) : Nat :=
  c.next.line

/-- The tokens that are left, with the one that ends the source. -/
def left (c : Cursor) : List Token :=
  c.rest ++ [c.stop]

/-- The tokens stand at places, each behind the one before it, and the last one ends the source.  A
    token of the kind of a reserved word has this word for its lexeme. -/
structure Rising (c : Cursor) : Prop where
  lines : c.left.Pairwise fun t u => t.line < u.line
  stop : c.stop.isEnd = true
  spelled : ∀ t ∈ c.left, ∀ word, (word, t.kind) ∈ TokenKind.reserved → t.lexeme = word

theorem next_mem (c : Cursor) : c.next ∈ c.left := by
  unfold next left
  rcases c.rest with _ | ⟨t, rest⟩ <;> simp

variable {c middle later : Cursor}

theorem Onward.left_sublist (h : c.Onward later) : later.left.Sublist c.left := by
  unfold left
  rw [h.stop]
  exact h.rest.sublist.append (List.Sublist.refl _)

theorem Rising.onward (hc : c.Rising) (h : c.Onward later) : later.Rising where
  lines := hc.lines.sublist h.left_sublist
  stop := by rw [h.stop]; exact hc.stop
  spelled t ht := hc.spelled t (h.left_sublist.subset ht)

theorem Rising.place_le (hc : c.Rising) (h : c.Onward later) : c.place ≤ later.place := by
  obtain ⟨before, hrest⟩ := h.rest
  rcases before with _ | ⟨t, before⟩
  · have hnext : later.next = c.next := by
      rw [next, next, h.stop, ← hrest, List.nil_append]
    exact Nat.le_of_eq (congrArg Token.line hnext.symm)
  · have hlines := hc.lines
    rw [left, ← hrest, List.append_assoc, List.cons_append, List.pairwise_cons] at hlines
    have hmem : later.next ∈ before ++ (later.rest ++ [c.stop]) := by
      rw [← h.stop]
      exact List.mem_append_right _ later.next_mem
    have hnext : c.next = t := by
      rw [next, ← hrest]
      rfl
    rw [place, hnext]
    exact Nat.le_of_lt (hlines.1 _ hmem)

/-- The next token writes this name. -/
def Writes (c : Cursor) (name : Name) : Prop :=
  c.next.lexeme = name.text ∧ c.next.line = name.line

theorem Rising.writes (hc : c.Rising) {word : String}
    (hword : (word, c.next.kind) ∈ TokenKind.reserved) : c.Writes ⟨word, c.next.line⟩ :=
  ⟨hc.spelled _ c.next_mem _ hword, rfl⟩

/-- A token that does not end the source has been left to read. -/
theorem Rising.rest_eq (hc : c.Rising) (h : c.next.isEnd = false) :
    ∃ rest, c.rest = c.next :: rest := by
  unfold next at h ⊢
  rcases hrest : c.rest with _ | ⟨t, rest⟩
  · rw [hrest] at h
    exact absurd (hc.stop.symm.trans h) (by simp)
  · exact ⟨rest, rfl⟩

theorem onward_note (c : Cursor) (e : SyntaxError) : c.Onward (c.note e) where
  rest := List.suffix_refl _
  stop := rfl
  nextId := Nat.le_refl _
  errors := List.prefix_append _ _

end Cursor

/-! ### What comes late -/

/-- The second error is that an assignment behind `start` has no target, and the first one was found in
    its value. -/
def LateTarget (start : Cursor) (first second : SyntaxError) : Prop :=
  second.fault = .invalidAssignmentTarget
    ∧ ∃ (steps : Nat) (c later : Cursor) (value : Expr) (noted : List SyntaxError),
      second.token :: c.rest <:+ start.rest ∧ c.stop = start.stop
        ∧ Parser.expression steps c = .ok value later
        ∧ later.errors = c.errors ++ noted ∧ first ∈ noted

/-- The second site is in the increment of a `for` behind `start`, and the first one in its body. -/
def LateIncrement (start : Cursor) (first second : Name) : Prop :=
  ∃ (t : Token) (steps : Nat) (c later : Cursor) (clauses : ForClauses) (increment : Expr),
    t.kind = .kwFor ∧ t :: c.rest <:+ start.rest ∧ c.stop = start.stop
      ∧ Parser.forClauses steps c = .ok clauses later
      ∧ clauses.increment = some increment ∧ first ∈ clauses.body.sites ∧ second ∈ increment.sites

theorem LateTarget.mono {start later : Cursor} (h : start.Onward later) (first second : SyntaxError) :
    LateTarget later first second → LateTarget start first second := by
  rintro ⟨hfault, steps, c, last, value, noted, hsign, hstop, hrest⟩
  exact ⟨hfault, steps, c, last, value, noted, hsign.trans h.rest, hstop.trans h.stop, hrest⟩

theorem LateIncrement.mono {start later : Cursor} (h : start.Onward later) (first second : Name) :
    LateIncrement later first second → LateIncrement start first second := by
  rintro ⟨t, steps, c, last, clauses, increment, hkind, hfor, hstop, hrest⟩
  exact ⟨t, steps, c, last, clauses, increment, hkind, hfor.trans h.rest, hstop.trans h.stop, hrest⟩

namespace Cursor

variable {c middle later : Cursor}

/-- Between two cursors these sites have been read. -/
structure Covers (c later : Cursor) (sites : List Name) : Prop where
  rising : c.Rising
  onward : c.Onward later
  order : InOrder Name.line (LateIncrement c) c.place later.place sites
  tokens : ∀ name ∈ sites, ∃ t ∈ c.left, t.lexeme = name.text ∧ t.line = name.line

theorem Covers.nil (hc : c.Rising) (h : c.Onward later) : c.Covers later [] :=
  ⟨hc, h, inOrder_nil, nofun⟩

theorem Covers.single (hc : c.Rising) (h : c.Onward later) {name : Name} (hname : c.Writes name) :
    c.Covers later [name] where
  rising := hc
  onward := h
  order := inOrder_singleton (Nat.le_of_eq hname.2) (by rw [← hname.2]; exact hc.place_le h)
  tokens := List.forall_mem_singleton.mpr ⟨_, c.next_mem, hname⟩

theorem Covers.append {sites more : List Name} (h : c.Covers middle sites)
    (hmore : middle.Covers later more) : c.Covers later (sites ++ more) where
  rising := h.rising
  onward := h.onward.trans hmore.onward
  order := h.order.append
    (hmore.order.mono (LateIncrement.mono h.onward) (Nat.le_refl _) (Nat.le_refl _))
    (h.rising.place_le h.onward) (hmore.rising.place_le hmore.onward)
  tokens name hname := by
    rcases List.mem_append.mp hname with hname | hname
    · exact h.tokens name hname
    · obtain ⟨t, ht, hwrites⟩ := hmore.tokens name hname
      exact ⟨t, h.onward.left_sublist.subset ht, hwrites⟩

/-- No site has been read on the rest of the way. -/
theorem Covers.before {sites : List Name} (h : c.Covers middle sites) (hlater : middle.Onward later) :
    c.Covers later sites := by
  have hrest := h.append (.nil (h.rising.onward h.onward) hlater)
  rwa [List.append_nil] at hrest

/-- No site has been read on the first part of the way. -/
theorem Covers.behind {sites : List Name} (hc : c.Rising) (h : c.Onward middle)
    (hmiddle : middle.Covers later sites) : c.Covers later sites :=
  (Covers.nil hc h).append hmiddle

/-- Some sites are not looked at. -/
theorem Covers.sublist {sites fewer : List Name} (h : c.Covers later sites)
    (hfewer : fewer.Sublist sites) : c.Covers later fewer where
  rising := h.rising
  onward := h.onward
  order := h.order.sublist hfewer
  tokens name hname := h.tokens name (hfewer.subset hname)

/-- A site for two rules. -/
theorem Covers.twice {name : Name} (h : c.Covers later [name]) : c.Covers later [name, name] where
  rising := h.rising
  onward := h.onward
  order := InOrder.concat h.order h.order fun a ha b hb => by
    rw [List.mem_singleton.mp ha, List.mem_singleton.mp hb]
    exact Or.inl (Nat.le_refl _)
  tokens := List.forall_mem_append.mpr ⟨h.tokens, h.tokens⟩

/-- The increment of a `for` has been read in front of the body, and its sites stand behind those of
    the body. -/
theorem Covers.late {clauses increment body : List Name} (hclauses : c.Covers middle clauses)
    (hrounds : middle.Covers later (increment ++ body))
    (hlate : ∀ a ∈ body, ∀ b ∈ increment, LateIncrement c a b) :
    c.Covers later (clauses ++ (body ++ increment)) where
  rising := hclauses.rising
  onward := hclauses.onward.trans hrounds.onward
  order := by
    -- Read in this order, put together in the other one.
    have hrest :
        InOrder Name.line (LateIncrement c) middle.place later.place (increment ++ body) :=
      hrounds.order.mono (LateIncrement.mono hclauses.onward) (Nat.le_refl _) (Nat.le_refl _)
    have hswapped := InOrder.concat (hrest.sublist (List.sublist_append_right _ _))
      (hrest.sublist (List.sublist_append_left _ _)) fun a ha b hb => Or.inr (hlate a ha b hb)
    exact hclauses.order.append hswapped (hclauses.rising.place_le hclauses.onward)
      (hrounds.rising.place_le hrounds.onward)
  tokens name hname := by
    refine (hclauses.append hrounds).tokens name ?_
    simp only [List.mem_append] at hname ⊢
    exact hname.imp_right Or.symm

/-- Between two cursors errors have been noted, and `extra` stopped the parser there. -/
structure Notes (c later : Cursor) (extra : List SyntaxError) : Prop where
  rising : c.Rising
  onward : c.Onward later
  found : ∃ noted, later.errors = c.errors ++ noted
    ∧ InOrder (fun e => e.token.line) (LateTarget c) c.place later.place (noted ++ extra)
    ∧ ∀ e ∈ noted ++ extra, e.token ∈ c.left

theorem Notes.quiet (hc : c.Rising) (h : c.Onward later) (herrors : later.errors = c.errors) :
    c.Notes later [] :=
  ⟨hc, h, [], by rw [herrors, List.append_nil], inOrder_nil, nofun⟩

theorem Notes.stopped (hc : c.Rising) (fault : SyntaxFault) : c.Notes c [⟨c.next, fault⟩] :=
  ⟨hc, .refl c, [], (List.append_nil _).symm,
    inOrder_singleton (Nat.le_refl c.place) (Nat.le_refl c.place),
    List.forall_mem_singleton.mpr c.next_mem⟩

theorem Notes.trans {extra : List SyntaxError} (h : c.Notes middle [])
    (hlater : middle.Notes later extra) : c.Notes later extra := by
  obtain ⟨noted, herrors, horder, htokens⟩ := h.found
  obtain ⟨more, hmore, horder', htokens'⟩ := hlater.found
  rw [List.append_nil] at horder htokens
  refine ⟨h.rising, h.onward.trans hlater.onward, noted ++ more, ?_, ?_, ?_⟩
  · rw [hmore, herrors, List.append_assoc]
  · rw [List.append_assoc]
    exact horder.append
      (horder'.mono (LateTarget.mono h.onward) (Nat.le_refl _) (Nat.le_refl _))
      (h.rising.place_le h.onward) (hlater.rising.place_le hlater.onward)
  · rw [List.append_assoc]
    exact List.forall_mem_append.mpr
      ⟨htokens, fun e he => h.onward.left_sublist.subset (htokens' e he)⟩

/-- What stopped the parser is noted. -/
theorem Notes.note {e : SyntaxError} (h : c.Notes later [e]) : c.Notes (later.note e) [] := by
  obtain ⟨noted, herrors, hfound⟩ := h.found
  refine ⟨h.rising, h.onward.trans (later.onward_note e), noted ++ [e], ?_, ?_⟩
  · show later.errors ++ [e] = _
    rw [herrors, List.append_assoc]
  · rw [List.append_nil]
    exact hfound

/-- The sign of an assignment without a target stands before the value, and its error is noted behind
    those of the value. -/
theorem Notes.noTarget (hc : c.Rising) {sign : Token} {rest : List Token}
    (hrest : c.rest = sign :: rest) (hnotes : Notes { c with rest } later []) {steps : Nat}
    {value : Expr} (hvalue : Parser.expression steps { c with rest } = .ok value later) :
    c.Notes (later.note ⟨sign, .invalidAssignmentTarget⟩) [] := by
  obtain ⟨noted, herrors, horder, htokens⟩ := hnotes.found
  have hnext : c.next = sign := by
    rw [next, hrest]
    rfl
  have hsign : sign.line = c.place := by
    rw [← hnext]
    rfl
  have hon := Parser.onward_cons hrest
  have honward : c.Onward later := hon.trans hnotes.onward
  refine ⟨hc, honward.trans (later.onward_note _), noted ++ [⟨sign, .invalidAssignmentTarget⟩], ?_,
    ?_, ?_⟩
  · show later.errors ++ _ = _
    rw [herrors, List.append_assoc]
  · rw [List.append_nil] at horder ⊢
    refine InOrder.concat ?_ ?_ fun e he sign' hsign' => Or.inr ?_
    · exact horder.mono (LateTarget.mono hon) (hc.place_le hon) (Nat.le_refl _)
    · have hnoted := honward.trans (later.onward_note ⟨sign, .invalidAssignmentTarget⟩)
      exact inOrder_singleton (Nat.le_of_eq hsign.symm)
        (Nat.le_trans (Nat.le_of_eq hsign) (hc.place_le hnoted))
    · rw [List.mem_singleton.mp hsign']
      exact ⟨rfl, steps, { c with rest }, later, value, noted, ⟨[], hrest.symm⟩, rfl, hvalue,
        herrors, he⟩
  · rw [List.append_nil] at htokens ⊢
    refine List.forall_mem_append.mpr ⟨fun e he => hon.left_sublist.subset (htokens e he), ?_⟩
    exact List.forall_mem_singleton.mpr (hnext ▸ c.next_mem)

end Cursor

end Treewalk
