import Treewalk.Proofs.Syntax.Acceptance
import Treewalk.Proofs.Syntax.Ladder
import Treewalk.Proofs.Syntax.Renumbering

/-!
# Reading a tree back

**A tree that stands on the ladder is read back from its tokens, up to the numbers of its
references.**  The parser builds a row of operators from the left: it reads the first operand and
then adds to it what follows.  The tree of a row hangs to the left too, so its first operand lies
deepest.  Going down there, one keeps in mind what the parser does behind the part in hand, and
that part may be any tree like the one expected.
-/

namespace Treewalk

open Grammar

/-! ### Trees up to numbers -/

/-- All references have the same number. -/
abbrev Shift.numberless : Shift := .ofIds fun _ => 0

/-- The trees differ in the numbers of their references at most. -/
def Expr.Alike (e e' : Expr) : Prop :=
  e.move .numberless = e'.move .numberless

/-- The arguments differ in the numbers of their references at most. -/
def ArgumentsAlike (args args' : List Expr) : Prop :=
  moveArguments .numberless args = moveArguments .numberless args'

theorem Expr.Alike.eq_variable {e : Expr} {name : Name} {id : Nat}
    (h : e.Alike (.variable name id)) : ∃ id', e = .variable name id' := by
  cases e <;> simp only [Expr.Alike, Expr.move, Name.move_ofIds, Expr.variable.injEq, and_true,
    reduceCtorEq] at h
  subst h
  exact ⟨_, rfl⟩

theorem Expr.Alike.eq_get {e object : Expr} {name : Name} (h : e.Alike (.get object name)) :
    ∃ object' : Expr, e = .get object' name ∧ object'.Alike object := by
  cases e <;> simp only [Expr.Alike, Expr.move, Name.move_ofIds, Expr.get.injEq, reduceCtorEq] at h
  obtain ⟨hobject, rfl⟩ := h
  exact ⟨_, rfl, hobject⟩

namespace Parser

variable {t : Token} {u rest : List Token} {level : Level} {tighter : List Level}

theorem alike_join {join : Expr → Expr → Expr} {left left' right right' : Expr}
    (hjoin : level.join? t = some join) (hleft : left'.Alike left) (hright : right'.Alike right) :
    (join left' right').Alike (join left right) := by
  rcases join_cases hjoin with ⟨op, -, -, rfl⟩ | ⟨op, -, -, rfl⟩
  · exact congrArg₂ (Expr.binary op t.line) hleft hright
  · exact congrArg₂ (Expr.logical op t.line) hleft hright

/-! ### Taking a tree apart -/

theorem join_binary {op : BinaryOp} (h : t.kind = op.kind) :
    op.level.join? t = some (.binary op t.line) := by
  obtain ⟨kind, lexeme, line⟩ := t
  subst h
  cases op <;> rfl

theorem join_logical {op : LogicalOp} (h : t.kind = op.kind) :
    op.level.join? t = some (.logical op t.line) := by
  obtain ⟨kind, lexeme, line⟩ := t
  subst h
  cases op <;> rfl

theorem Level.rung_injective {level other : Level} (h : level.rung = other.rung) :
    level = other := by
  cases level <;> cases other <;> first | rfl | cases h

theorem Level.rung_lt (level : Level) : level.rung < 7 := by
  cases level <;> decide

theorem Level.rung_pos (level : Level) : 0 < level.rung := by
  cases level <;> decide

/-- On the rung of a level stand the trees that an operator of the level has joined. -/
theorem Yields.parts {e : Expr} (hlevels : level :: tighter <:+ Level.all)
    (h : Yields level.rung e u) (hrung : e.rung ≤ level.rung) :
    ∃ join left right v t w, e = join left right ∧ u = v ++ t :: w ∧ level.join? t = some join
      ∧ Yields level.rung left v ∧ Yields (joinedRung tighter) right w := by
  have heq : e.rung = level.rung := Nat.le_antisymm hrung h.rung_le
  have hlow := level.rung_pos
  have hhigh := level.rung_lt
  rw [joinedRung_tighter hlevels]
  obtain ⟨hshown, honLadder, -⟩ := h
  cases e <;> simp only [Expr.rung] at heq <;> try omega
  case binary op line left right =>
    obtain rfl := Level.rung_injective heq
    obtain ⟨v, t, w, rfl, hv, ⟨hkind, rfl⟩, hw⟩ := shown_append_cons_iff.mp hshown
    obtain ⟨hleft, hright, hleftRung, hrightRung⟩ := honLadder
    exact ⟨_, left, right, v, t, w, rfl, rfl, join_binary hkind, ⟨hv, hleft, hleftRung⟩,
      ⟨hw, hright, hrightRung⟩⟩
  case logical op line left right =>
    obtain rfl := Level.rung_injective heq
    obtain ⟨v, t, w, rfl, hv, ⟨hkind, rfl⟩, hw⟩ := shown_append_cons_iff.mp hshown
    obtain ⟨hleft, hright, hleftRung, hrightRung⟩ := honLadder
    exact ⟨_, left, right, v, t, w, rfl, rfl, join_logical hkind, ⟨hv, hleft, hleftRung⟩,
      ⟨hw, hright, hrightRung⟩⟩

/-- The first token is that of an operand.  On the rung of operators in front of an operand, and
    below, it may be such an operator. -/
def Begins (rung : Nat) (u : List Token) : Prop :=
  ∃ t v, u = t :: v ∧ (oneOfKinds primaryStarts t.kind = true
    ∨ rung ≤ 7 ∧ (t.kind.sameForm .bang = true ∨ t.kind.sameForm .minus = true))

theorem Begins.append {rung lower : Nat} (h : Begins rung u) (hlower : rung ≤ 7 → lower ≤ 7)
    (v : List Token) : Begins lower (u ++ v) := by
  obtain ⟨t, w, rfl, ht⟩ := h
  exact ⟨t, w ++ v, rfl, ht.imp_right fun ⟨hrung, hsign⟩ => ⟨hlower hrung, hsign⟩⟩

theorem Begins.starts {rung : Nat} (h : Begins rung u) :
    ∃ t v, u = t :: v ∧ oneOfKinds expressionStarts t.kind = true := by
  obtain ⟨t, v, rfl, ht⟩ := h
  refine ⟨t, v, rfl, ?_⟩
  simp only [oneOfKinds, expressionStarts, List.any_cons, Bool.or_eq_true]
  rcases ht with ht | ⟨-, ht | ht⟩
  · exact .inr (.inr ht)
  · exact .inl ht
  · exact .inr (.inl ht)

theorem begins_of_mark {rung : Nat} {mark : Mark} {marks : List Mark}
    (h : Shown u (mark :: marks)) (hmark : oneOfKinds primaryStarts mark.kind = true) :
    Begins rung u := by
  obtain ⟨t, v, ht, -, rfl⟩ := shown_cons_iff.mp h
  exact ⟨t, v, rfl, .inl (by rw [ht.kind_eq]; exact hmark)⟩

/-- The first token of a row is that of its first operand. -/
theorem Yields.begins : ∀ {e : Expr} {u : List Token}, Yields 0 e u → Begins e.rung u
  | .literal value, _, h => begins_of_mark h.shown (by cases value <;> rfl)
  | .grouping _, _, h => begins_of_mark h.shown rfl
  | .variable _ _, _, h => begins_of_mark h.shown rfl
  | .assign _ _ _, _, h => begins_of_mark h.shown rfl
  | .this _ _, _, h => begins_of_mark h.shown rfl
  | .super _ _ _, _, h => begins_of_mark h.shown rfl
  | .unary op line operand, u, h => by
    obtain ⟨t, v, ⟨hkind, -⟩, -, rfl⟩ := shown_cons_iff.mp h.shown
    refine ⟨t, v, rfl, .inr ⟨Nat.le_refl _, ?_⟩⟩
    rw [hkind]
    cases op
    · exact .inr rfl
    · exact .inl rfl
  | .binary op _ left _, _, h => by
    obtain ⟨v, w, rfl, hv, -⟩ := shown_append_iff.mp h.shown
    have hleft : Yields 0 left v := ⟨hv, h.onLadder.1, Nat.zero_le _⟩
    exact hleft.begins.append (fun _ => Nat.le_of_lt op.level.rung_lt) w
  | .logical op _ left _, _, h => by
    obtain ⟨v, w, rfl, hv, -⟩ := shown_append_iff.mp h.shown
    have hleft : Yields 0 left v := ⟨hv, h.onLadder.1, Nat.zero_le _⟩
    exact hleft.begins.append (fun _ => Nat.le_of_lt op.level.rung_lt) w
  | .call callee _ _, _, h => by
    obtain ⟨v, w, rfl, hv, -⟩ := shown_append_iff.mp h.shown
    have hcallee : Yields 0 callee v := ⟨hv, h.onLadder.1, Nat.zero_le _⟩
    exact hcallee.begins.append (fun hlow => absurd h.onLadder.2.1 (Nat.not_le_of_lt (by omega))) w
  | .get object _, _, h => by
    obtain ⟨v, w, rfl, hv, -⟩ := shown_append_iff.mp h.shown
    have hobject : Yields 0 object v := ⟨hv, h.onLadder.1, Nat.zero_le _⟩
    exact hobject.begins.append (fun hlow => absurd h.onLadder.2 (Nat.not_le_of_lt (by omega))) w
  | .set object _ _, _, h => by
    obtain ⟨v, w, rfl, hv, -⟩ := shown_append_iff.mp h.shown
    have hobject : Yields 0 object v := ⟨hv, h.onLadder.1, Nat.zero_le _⟩
    exact hobject.begins.append (fun _ => Nat.zero_le _) w

theorem assigned_of_rung {e : Expr} (h : e.rung = 0) :
    (∃ name id value, e = .assign name id value)
      ∨ ∃ object name value, e = .set object name value := by
  cases e <;> simp only [Expr.rung] at h <;> try omega
  case assign name id value => exact .inl ⟨name, id, value, rfl⟩
  case set object name value => exact .inr ⟨object, name, value, rfl⟩
  case binary op _ _ _ | logical op _ _ _ =>
    have hpos := op.level.rung_pos
    omega

theorem prefixed_of_rung {e : Expr} (h : e.rung = 7) :
    ∃ op line operand, e = .unary op line operand := by
  cases e <;> simp only [Expr.rung] at h <;> try omega
  case unary op line operand => exact ⟨op, line, operand, rfl⟩
  case binary op _ _ _ | logical op _ _ _ =>
    have hlow := op.level.rung_lt
    omega

theorem suffixed_of_rung {e : Expr} (h : e.rung = 8) :
    (∃ callee line args, e = .call callee line args) ∨ ∃ object name, e = .get object name := by
  cases e <;> simp only [Expr.rung] at h <;> try omega
  case call callee line args => exact .inl ⟨callee, line, args, rfl⟩
  case get object name => exact .inr ⟨object, name, rfl⟩
  case binary op _ _ _ | logical op _ _ _ =>
    have hlow := op.level.rung_lt
    omega

/-- The first of the arguments, and what follows it. -/
theorem YieldsArguments.parts {count : Nat} {args : List Expr} (h : YieldsArguments count args u) :
    ∃ argument others v w, args = argument :: others ∧ u = v ++ w ∧ Yields 0 argument v
      ∧ count < maxArity ∧ ((others = [] ∧ w = []) ∨ ∃ comma z, w = comma :: z
        ∧ comma.kind = .comma ∧ YieldsArguments (count + 1) others z) := by
  obtain ⟨hshown, honLadder, hne, hlength⟩ := h
  obtain ⟨argument, others, rfl⟩ := List.exists_cons_of_ne_nil hne
  rw [List.length_cons] at hlength
  have hfirst {v : List Token} (hv : Shown v argument.marks) : Yields 0 argument v :=
    ⟨hv, honLadder.1, Nat.zero_le _⟩
  cases others with
  | nil => exact ⟨argument, [], u, [], rfl, by simp, hfirst hshown, by omega, .inl ⟨rfl, rfl⟩⟩
  | cons next others =>
    rw [argumentMarks] at hshown
    obtain ⟨v, comma, w, rfl, hv, hcomma, hw⟩ := shown_append_cons_iff.mp hshown
    have hothers : YieldsArguments (count + 1) (next :: others) w :=
      ⟨hw, honLadder.2, List.cons_ne_nil next others, by omega⟩
    exact ⟨argument, next :: others, v, comma :: w, rfl, rfl, hfirst hv, by omega,
      .inr ⟨comma, w, rfl, hcomma, hothers⟩⟩

/-! ### Rows -/

section Rows

variable {steps : Nat} {P : Expr → Prop} {v : List Token}

/-- A row of operators is read from its first operand on.  `v` is what follows the part in hand. -/
theorem accepts_row (hlevels : level :: tighter <:+ Level.all)
    (hjoined : ∀ steps' ≤ steps, ∀ (e : Expr) (u rest : List Token),
      Yields (joinedRung tighter) e u → Ended tighter rest →
      16 * u.length + tighter.length + 3 ≤ steps' →
      Accepts (joined steps' tighter) u rest fun e' => e'.Alike e)
    (e : Expr) (u v : List Token) (hu : Yields level.rung e u) (hv : Ended tighter (v ++ rest))
    (hsteps : 16 * (u.length + v.length) + tighter.length + 3 ≤ steps)
    (hmore : ∀ steps' ≤ steps, ∀ e' : Expr, 16 * v.length + 1 ≤ steps' → e'.Alike e →
      Accepts (joinedFrom steps' level tighter e') v rest P) :
    Accepts (do joinedFrom steps level tighter (← joined steps tighter)) (u ++ v) rest P := by
  have hlength : tighter.length ≤ 5 := by
    have h := hlevels.length_le
    simp only [List.length_cons, Level.all, List.length_nil] at h
    omega
  by_cases hrung : e.rung ≤ level.rung
  · obtain ⟨join, left, right, x, t, y, rfl, hshape, hjoin, hleft, hright⟩ :=
      hu.parts hlevels hrung
    have hlonger : u.length = x.length + (y.length + 1) := by simp [hshape]
    rw [hshape, List.append_assoc, List.cons_append]
    refine accepts_row hlevels hjoined left x (t :: (y ++ v)) hleft
      (ended_of_operator hlevels hjoin) (by simp; omega)
      fun steps' hsteps' left' henough halike => ?_
    simp only [List.length_cons, List.length_append] at henough
    obtain ⟨steps', rfl⟩ := Nat.exists_eq_add_of_le' (Nat.one_le_of_lt henough)
    rw [joinedFrom]
    apply accepts_operator hjoin
    apply Accepts.bind (hjoined steps' (by omega) right y _ hright hv (by omega))
    intro right' halike'
    exact hmore steps' (by omega) _ (by omega) (alike_join hjoin halike halike')
  · have hoperand : Yields (joinedRung tighter) e u := by
      refine ⟨hu.shown, hu.onLadder, ?_⟩
      rw [joinedRung_tighter hlevels]
      omega
    exact Accepts.bind (hjoined steps (Nat.le_refl _) e u _ hoperand hv (by omega)) fun e' halike =>
      hmore steps (Nat.le_refl _) e' (by omega) halike
termination_by u.length
decreasing_by omega

/-- A list of arguments may be empty. -/
theorem accepts_listBefore {args : List Expr} (hu : Shown u (argumentMarks args))
    (honLadder : ArgumentsOnLadder args) (hlength : args.length ≤ maxArity)
    (hrest : StartsWith .rightParen rest)
    (harguments : YieldsArguments 0 args u →
      Accepts (arguments steps 0) u rest fun args' => ArgumentsAlike args' args) :
    Accepts (listBefore .rightParen (arguments steps 0)) u rest fun args' =>
      ArgumentsAlike args' args := by
  apply accepts_isNext
  by_cases hargs : args = []
  · subst hargs
    obtain rfl := shown_nil_iff.mp hu
    have hnext : rest.head?.any (fun t => t.kind.sameForm .rightParen) = true := hrest
    rw [List.nil_append, if_pos hnext]
    exact accepts_pure rfl
  · have hyields : YieldsArguments 0 args u := ⟨hu, honLadder, hargs, by omega⟩
    obtain ⟨argument, others, v, w, rfl, rfl, hargument, -⟩ := hyields.parts
    obtain ⟨t, x, rfl, ht⟩ := hargument.begins.starts
    have hnext : t.kind.sameForm .rightParen = false := sameForm_eq_false ht rfl
    rw [if_neg (by simp [hnext])]
    exact harguments hyields

/-- A row of calls and accesses is read from its innermost callee or object on.  `v` is what follows
    the part in hand. -/
theorem accepts_suffixes
    (hprimary : ∀ (e : Expr) (u rest : List Token), Yields 9 e u → 16 * u.length + 1 ≤ steps →
      Accepts (primary steps) u rest fun e' => e'.Alike e)
    (harguments : ∀ steps' ≤ steps, ∀ (args : List Expr) (u rest : List Token),
      YieldsArguments 0 args u → StartsWith .rightParen rest → 16 * u.length + 11 ≤ steps' →
      Accepts (arguments steps' 0) u rest fun args' => ArgumentsAlike args' args)
    (e : Expr) (u v : List Token) (hu : Yields 8 e u)
    (hsteps : 16 * (u.length + v.length) + 1 ≤ steps)
    (hmore : ∀ steps' ≤ steps, ∀ e' : Expr, 16 * v.length + 1 ≤ steps' → e'.Alike e →
      Accepts (calls steps' e') v rest P) :
    Accepts (do calls steps (← primary steps)) (u ++ v) rest P := by
  by_cases hrung : 9 ≤ e.rung
  · exact Accepts.bind (hprimary e u _ ⟨hu.shown, hu.onLadder, hrung⟩ (by omega)) fun e' halike =>
      hmore steps (Nat.le_refl _) e' (by omega) halike
  obtain ⟨hshown, honLadder, hrung'⟩ := hu
  have height : e.rung = 8 := by omega
  rcases suffixed_of_rung height with ⟨callee, line, args, rfl⟩ | ⟨object, name, rfl⟩
  · obtain ⟨x, opening, y, hshape, hx, hopening, hy⟩ := shown_append_cons_iff.mp hshown
    obtain ⟨z, closing, w, rfl, hz, ⟨hclosing, rfl⟩, hw⟩ := shown_append_cons_iff.mp hy
    obtain rfl := shown_nil_iff.mp hw
    obtain ⟨hcallee, hcalleeRung, hargs, hlength⟩ := honLadder
    have hlonger : u.length = x.length + (z.length + 2) := by simp [hshape]
    have hopen : opening.kind.sameForm .leftParen = true := TokenKind.sameForm_of_eq hopening
    have hclose : closing.kind.sameForm .rightParen = true := TokenKind.sameForm_of_eq hclosing
    have hsplit : u ++ v = x ++ opening :: (z ++ closing :: v) := by simp [hshape]
    rw [hsplit]
    refine accepts_suffixes hprimary harguments callee x _ ⟨hx, hcallee, hcalleeRung⟩
      (by simp; omega) fun steps' hsteps' callee' henough halike => ?_
    simp only [List.length_cons, List.length_append] at henough
    obtain ⟨steps', rfl⟩ := Nat.exists_eq_add_of_le' (Nat.one_le_of_lt henough)
    rw [calls]
    apply accepts_present hopen
    have hend : StartsWith .rightParen ((closing :: v) ++ rest) := hclose
    apply Accepts.bind (accepts_listBefore hz hargs hlength hend fun hyields =>
      harguments steps' (by omega) args z _ hyields hend (by omega))
    intro args' halike'
    apply accepts_expect hclose
    exact hmore steps' (by omega) _ (by omega)
      (congrArg₂ (fun callee args => Expr.call callee closing.line args) halike halike')
  · obtain ⟨x, dot, y, hshape, hx, hdot, hy⟩ := shown_append_cons_iff.mp hshown
    obtain ⟨t, w, ⟨hkind, htext, hline⟩, hw, rfl⟩ := shown_cons_iff.mp hy
    obtain rfl := shown_nil_iff.mp hw
    have hlonger : u.length = x.length + 2 := by simp [hshape]
    have hform : dot.kind.sameForm .dot = true := TokenKind.sameForm_of_eq hdot
    have hname : (⟨t.lexeme, t.line⟩ : Name) = name := by rw [htext, hline]
    have hsplit : u ++ v = x ++ dot :: t :: v := by simp [hshape]
    rw [hsplit]
    refine accepts_suffixes hprimary harguments object x _ ⟨hx, honLadder.1, honLadder.2⟩
      (by simp; omega) fun steps' hsteps' object' henough halike => ?_
    simp only [List.length_cons] at henough
    obtain ⟨steps', rfl⟩ := Nat.exists_eq_add_of_le' (Nat.one_le_of_lt henough)
    rw [calls]
    apply accepts_absent (next_ne hform rfl)
    apply accepts_present hform
    apply accepts_after_token (accepts_name (TokenKind.sameForm_of_eq hkind))
    rw [hname]
    exact hmore steps' (by omega) _ (by omega)
      (congrArg (fun object => Expr.get object name) halike)
termination_by u.length
decreasing_by all_goals omega

end Rows

theorem ended_of_equal (ht : t.kind = .equal) : Ended Level.all (t :: rest) :=
  ended_of_kinds fun t' ht' => by
    cases ht'
    rw [ht]
    rfl

mutual

theorem rereads_expression : ∀ (steps : Nat) (e : Expr) (u rest : List Token), Yields 0 e u →
    Closed rest → 16 * u.length + 10 ≤ steps →
    Accepts (expression steps) u rest fun e' => e'.Alike e
  | 0, _, _, _, _, _, hsteps => by omega
  | steps + 1, e, u, rest, hu, hrest, hsteps => by
    have hall : Level.all.length = 6 := rfl
    rw [expression]
    by_cases hrung : e.rung = 0
    · obtain ⟨hshown, honLadder, -⟩ := hu
      rcases assigned_of_rung hrung with ⟨name, id, value, rfl⟩ | ⟨object, name, value, rfl⟩
      · obtain ⟨t, x, ht, hx, rfl⟩ := shown_cons_iff.mp hshown
        obtain ⟨sign, z, hsign, hz, rfl⟩ := shown_cons_iff.mp hx
        simp only [List.length_cons] at hsteps
        have htarget : Yields (joinedRung Level.all) (.variable name id) [t] :=
          ⟨shown_single ht, trivial, Nat.le_add_left 1 8⟩
        have hvalue : Yields 0 value z := ⟨hz, honLadder, Nat.zero_le _⟩
        apply Accepts.bind (u := [t]) (rereads_joined steps Level.all _ _ _ (List.suffix_refl _)
          htarget (ended_of_equal hsign) (by simp; omega))
        intro target htargetAlike
        obtain ⟨id', rfl⟩ := htargetAlike.eq_variable
        apply accepts_present (TokenKind.sameForm_of_eq hsign)
        apply Accepts.bind_nil (rereads_expression steps value z rest hvalue hrest (by omega))
        intro value' hvalueAlike
        exact accepts_freshId fun _ => accepts_pure (congrArg (Expr.assign name 0) hvalueAlike)
      · obtain ⟨x, dot, y, rfl, hx, hdot, hy⟩ := shown_append_cons_iff.mp hshown
        obtain ⟨t, w, ht, hw, rfl⟩ := shown_cons_iff.mp hy
        obtain ⟨sign, z, hsign, hz, rfl⟩ := shown_cons_iff.mp hw
        have hsplit : x ++ dot :: t :: sign :: z = (x ++ [dot, t]) ++ sign :: z := by simp
        simp only [List.length_append, List.length_cons] at hsteps
        have htarget : Yields (joinedRung Level.all) (.get object name) (x ++ [dot, t]) :=
          ⟨hx.append (.cons hdot (shown_single ht)), ⟨honLadder.1, honLadder.2.1⟩,
            Nat.le_add_left 1 7⟩
        have hvalue : Yields 0 value z := ⟨hz, honLadder.2.2, Nat.zero_le _⟩
        rw [hsplit]
        apply Accepts.bind (rereads_joined steps Level.all _ _ _ (List.suffix_refl _)
          htarget (ended_of_equal hsign) (by simp; omega))
        intro target htargetAlike
        obtain ⟨object', rfl, hobjectAlike⟩ := htargetAlike.eq_get
        apply accepts_present (TokenKind.sameForm_of_eq hsign)
        apply Accepts.bind_nil (rereads_expression steps value z rest hvalue hrest (by omega))
        intro value' hvalueAlike
        exact accepts_pure
          (congrArg₂ (fun object value => Expr.set object name value) hobjectAlike hvalueAlike)
    · have hloosest : Yields (joinedRung Level.all) e u :=
        ⟨hu.shown, hu.onLadder, Nat.one_le_iff_ne_zero.mpr hrung⟩
      apply Accepts.bind_nil (rereads_joined steps Level.all e u rest (List.suffix_refl _) hloosest
        hrest.ended (by omega))
      intro target halike
      exact accepts_absent (hrest.ne rfl) (accepts_pure halike)
termination_by steps => steps

theorem rereads_joined : ∀ (steps : Nat) (levels : List Level) (e : Expr) (u rest : List Token),
    levels <:+ Level.all → Yields (joinedRung levels) e u → Ended levels rest →
    16 * u.length + levels.length + 3 ≤ steps →
    Accepts (joined steps levels) u rest fun e' => e'.Alike e
  | 0, _, _, _, _, _, _, _, hsteps => by omega
  | steps + 1, [], e, u, rest, _, hu, hrest, hsteps => by
    rw [joined]
    exact rereads_unary steps e u rest hu hrest (by simp at hsteps; omega)
  | steps + 1, level :: tighter, e, u, rest, hlevels, hu, hrest, hsteps => by
    have htighter : tighter <:+ Level.all := (List.suffix_cons _ _).trans hlevels
    rw [List.length_cons] at hsteps
    rw [joined, ← List.append_nil u]
    exact accepts_row hlevels
      (fun steps' hsteps' e u rest hu hrest henough =>
        rereads_joined steps' tighter e u rest htighter hu hrest henough)
      e u [] hu hrest.tail (by simp; omega) fun steps' _ e' henough halike =>
        accepts_joinedFrom_end (by omega) hrest halike
termination_by steps => steps

theorem rereads_unary : ∀ (steps : Nat) (e : Expr) (u rest : List Token), Yields 7 e u →
    Ended [] rest → 16 * u.length + 2 ≤ steps → Accepts (unary steps) u rest fun e' => e'.Alike e
  | 0, _, _, _, _, _, hsteps => by omega
  | steps + 1, e, u, rest, hu, hrest, hsteps => by
    rw [unary]
    by_cases hrung : 8 ≤ e.rung
    · have hcall : Yields 8 e u := ⟨hu.shown, hu.onLadder, hrung⟩
      have hnext (kind : TokenKind) (hkind : oneOfKinds primaryStarts kind = false) :
          ∀ t ∈ (u ++ rest).head?, t.kind.sameForm kind = false := by
        obtain ⟨t, v, rfl, ht⟩ := (hu.mono (Nat.zero_le _)).begins
        rintro t' ⟨⟩
        exact sameForm_eq_false (ht.resolve_right fun hsign => by omega) hkind
      apply accepts_absent (hnext .bang rfl)
      apply accepts_absent (hnext .minus rfl)
      rw [← List.append_nil u]
      exact accepts_suffixes
        (fun e u rest hu henough => rereads_primary steps e u rest hu henough)
        (fun steps' hsteps' args u rest hu hrest henough =>
          rereads_arguments steps' 0 args u rest hu hrest henough)
        e u [] hcall (by simp; omega) fun steps' _ e' henough halike =>
          accepts_calls_end (by omega) hrest halike
    · obtain ⟨hshown, honLadder, hlow⟩ := hu
      obtain ⟨op, line, operand, rfl⟩ := prefixed_of_rung (by omega : e.rung = 7)
      obtain ⟨t, v, ⟨hkind, rfl⟩, hv, rfl⟩ := shown_cons_iff.mp hshown
      rw [List.length_cons] at hsteps
      have hoperand := rereads_unary steps operand v rest ⟨hv, honLadder.1, honLadder.2⟩ hrest
        (by omega)
      have hnode : Accepts (do return Expr.unary op t.line (← unary steps)) v rest fun e' =>
          e'.Alike (.unary op t.line operand) := by
        apply Accepts.bind_nil hoperand
        intro operand' halike
        exact accepts_pure (congrArg (Expr.unary op t.line) halike)
      have hform := TokenKind.sameForm_of_eq hkind
      cases op with
      | not => exact accepts_present hform hnode
      | negate =>
        apply accepts_absent (next_ne hform rfl)
        exact accepts_present hform hnode
termination_by steps => steps

theorem rereads_arguments : ∀ (steps count : Nat) (args : List Expr) (u rest : List Token),
    YieldsArguments count args u → StartsWith .rightParen rest → 16 * u.length + 11 ≤ steps →
    Accepts (arguments steps count) u rest fun args' => ArgumentsAlike args' args
  | 0, _, _, _, _, _, _, hsteps => by omega
  | steps + 1, count, args, u, rest, hu, hrest, hsteps => by
    obtain ⟨argument, others, v, w, rfl, rfl, hv, hcount, hw⟩ := hu.parts
    rw [arguments]
    apply accepts_noteExcess hcount
    rcases hw with ⟨rfl, rfl⟩ | ⟨comma, z, rfl, hcomma, hz⟩
    · simp only [List.append_nil] at hsteps ⊢
      apply Accepts.bind_nil (rereads_expression steps argument v rest hv (hrest.closed rfl)
        (by omega))
      intro argument' halike
      exact accepts_absent (hrest.ne rfl) (accepts_pure (congrArg (fun e => [e]) halike))
    · have hform : comma.kind.sameForm .comma = true := TokenKind.sameForm_of_eq hcomma
      simp only [List.length_append, List.length_cons] at hsteps
      apply Accepts.bind (rereads_expression steps argument v _ hv (closed_cons hform rfl)
        (by omega))
      intro argument' halike
      apply accepts_present hform
      apply Accepts.bind_nil (rereads_arguments steps (count + 1) others z rest hz hrest (by omega))
      intro others' halike'
      exact accepts_pure (congrArg₂ List.cons halike halike')
termination_by steps => steps

theorem rereads_primary : ∀ (steps : Nat) (e : Expr) (u rest : List Token), Yields 9 e u →
    16 * u.length + 1 ≤ steps → Accepts (primary steps) u rest fun e' => e'.Alike e
  | 0, _, _, _, _, hsteps => by omega
  | steps + 1, e, u, rest, hu, hsteps => by
    obtain ⟨hshown, honLadder, hrung⟩ := hu
    rw [primary]
    cases e <;> simp only [Expr.rung] at hrung <;> try omega
    case binary op _ _ _ | logical op _ _ _ =>
      have hlow := op.level.rung_lt
      omega
    case literal value =>
      obtain ⟨t, v, hkind, hv, rfl⟩ := shown_cons_iff.mp hshown
      obtain rfl := shown_nil_iff.mp hv
      have hliteral : t.kind = value.kind := hkind
      apply accepts_peek
      cases value <;> simp only [hliteral, Literal.kind] <;> exact accepts_skip (accepts_pure rfl)
    case this line id =>
      obtain ⟨t, v, ⟨hkind, rfl⟩, hv, rfl⟩ := shown_cons_iff.mp hshown
      obtain rfl := shown_nil_iff.mp hv
      apply accepts_peek
      simp only [hkind]
      exact accepts_skip (accepts_freshId fun _ => accepts_pure rfl)
    case «variable» name id =>
      obtain ⟨t, v, ⟨hkind, htext, hline⟩, hv, rfl⟩ := shown_cons_iff.mp hshown
      obtain rfl := shown_nil_iff.mp hv
      apply accepts_peek
      simp only [hkind]
      refine accepts_skip (accepts_freshId fun _ => accepts_pure ?_)
      rw [htext, hline]
      rfl
    case super line id method =>
      obtain ⟨t, v, ⟨hkind, rfl⟩, hv, rfl⟩ := shown_cons_iff.mp hshown
      obtain ⟨dot, w, hdot, hw, rfl⟩ := shown_cons_iff.mp hv
      obtain ⟨name, x, ⟨hname, htext, hline⟩, hx, rfl⟩ := shown_cons_iff.mp hw
      obtain rfl := shown_nil_iff.mp hx
      apply accepts_peek
      simp only [hkind]
      apply accepts_skip
      apply accepts_expect (TokenKind.sameForm_of_eq hdot)
      apply accepts_after_token (accepts_name (TokenKind.sameForm_of_eq hname))
      refine accepts_freshId fun _ => accepts_pure ?_
      rw [htext, hline]
      rfl
    case grouping inner =>
      obtain ⟨t, v, hkind, hv, rfl⟩ := shown_cons_iff.mp hshown
      obtain ⟨w, closing, x, rfl, hw, hclosing, hx⟩ := shown_append_cons_iff.mp hv
      obtain rfl := shown_nil_iff.mp hx
      have hopening : t.kind = .leftParen := hkind
      have hform : closing.kind.sameForm .rightParen = true := TokenKind.sameForm_of_eq hclosing
      simp only [List.length_append, List.length_cons, List.length_nil] at hsteps
      apply accepts_peek
      simp only [hopening]
      apply accepts_skip
      apply Accepts.bind (rereads_expression steps inner w _ ⟨hw, honLadder, Nat.zero_le _⟩
        (closed_cons hform rfl) (by omega))
      intro inner' halike
      apply accepts_expect hform
      exact accepts_pure (congrArg Expr.grouping halike)
termination_by steps => steps

end

theorem rereads_wholeExpression {steps : Nat} {e : Expr} (hu : Yields 0 e u)
    (hsteps : 16 * u.length + 10 ≤ steps) :
    Accepts (wholeExpression steps) u [] fun e' => e'.Alike e := by
  apply Accepts.bind_nil (rereads_expression steps e u [] hu closed_nil hsteps)
  intro value halike
  exact accepts_isAtEnd (accepts_pure halike)

end Parser

/-! ### Writing a tree out -/

/-- A token that shows the mark.  What the mark does not tell is left empty. -/
def Mark.token : Mark → Token
  | .sign kind => ⟨kind, "", 1⟩
  | .signAt kind line => ⟨kind, "", line⟩
  | .name n => ⟨.identifier, n.text, n.line⟩

theorem Mark.token_shows : ∀ mark : Mark, mark.token.Shows mark
  | .sign _ => rfl
  | .signAt _ _ => ⟨rfl, rfl⟩
  | .name _ => ⟨rfl, rfl, rfl⟩

/-- All marks can be written. -/
theorem shown_tokens : ∀ marks : List Mark, Shown (marks.map Mark.token) marks
  | [] => .nil
  | mark :: marks => .cons mark.token_shows (shown_tokens marks)

/-- No mark tells of the end of the source. -/
def Endless (marks : List Mark) : Prop :=
  ∀ mark ∈ marks, mark.kind.sameForm .eof = false

theorem endless_single {mark : Mark} (h : mark.kind.sameForm .eof = false) : Endless [mark] :=
  List.forall_mem_singleton.mpr h

theorem Endless.append {marks others : List Mark} (h : Endless marks) (hothers : Endless others) :
    Endless (marks ++ others) :=
  List.forall_mem_append.mpr ⟨h, hothers⟩

theorem Endless.cons {mark : Mark} {marks : List Mark} (h : mark.kind.sameForm .eof = false)
    (hmarks : Endless marks) : Endless (mark :: marks) :=
  List.forall_mem_cons.mpr ⟨h, hmarks⟩

mutual

theorem Expr.endless_marks : ∀ e : Expr, Endless e.marks
  | .literal value => endless_single (by cases value <;> rfl)
  | .grouping inner => .cons rfl (inner.endless_marks.append (endless_single rfl))
  | .unary op _ operand => .cons (by cases op <;> rfl) operand.endless_marks
  | .binary op _ left right =>
    left.endless_marks.append (.cons (by cases op <;> rfl) right.endless_marks)
  | .logical op _ left right =>
    left.endless_marks.append (.cons (by cases op <;> rfl) right.endless_marks)
  | .variable _ _ => endless_single rfl
  | .assign _ _ value => .cons rfl (.cons rfl value.endless_marks)
  | .call callee _ args =>
    callee.endless_marks.append
      (.cons rfl ((endless_argumentMarks args).append (endless_single rfl)))
  | .get object _ => object.endless_marks.append (.cons rfl (endless_single rfl))
  | .set object _ value =>
    object.endless_marks.append (.cons rfl (.cons rfl (.cons rfl value.endless_marks)))
  | .this _ _ => endless_single rfl
  | .super _ _ _ => .cons rfl (.cons rfl (endless_single rfl))

theorem endless_argumentMarks : ∀ args : List Expr, Endless (argumentMarks args)
  | [] => nofun
  | [argument] => argument.endless_marks
  | argument :: next :: args =>
    argument.endless_marks.append (.cons rfl (endless_argumentMarks (next :: args)))

end

theorem Shown.isEnd_eq_false {u : List Token} {marks : List Mark} (h : Shown u marks)
    (hmarks : Endless marks) : ∀ t ∈ u, t.isEnd = false := by
  induction h with
  | nil => nofun
  | @cons t mark u marks ht _ ih =>
    obtain ⟨hmark, hothers⟩ := List.forall_mem_cons.mp hmarks
    refine List.forall_mem_cons.mpr ⟨?_, ih hothers⟩
    rw [Token.isEnd, ht.kind_eq]
    exact hmark

/-! ### Whole sources -/

namespace Cursor

theorem stop_start_isEnd (tokens : List Token) (firstId : Nat) :
    (start tokens firstId).stop.isEnd = true := by
  rcases h : tokens.find? Token.isEnd with _ | t
  · simp only [start, h]
    rfl
  · simp only [start, h]
    exact List.find?_some h

/-- Without an error, the tree is shown by the tokens and stands on the ladder. -/
theorem yields_of_expression {c : Cursor} (hc : c.stop.isEnd = true) (h : c.expression.2.1 = []) :
    ∃ e, c.expression.1 = some e ∧ Parser.Yields 0 e c.rest := by
  obtain ⟨e, u, later, hresult, hu, hyields, hend⟩ := gives_of_run_quiet h hc
    (Parser.yields_wholeExpression c.steps) (Parser.gives_wholeExpression_end c.steps _)
  rw [hend, List.append_nil] at hu
  exact ⟨e, hresult, hu ▸ hyields⟩

/-- A tree on the ladder is read back from tokens that show it. -/
theorem expression_of_yields {c : Cursor} {e : Expr} (h : Parser.Yields 0 e c.rest) :
    c.expression.2.1 = [] ∧ ∃ e', c.expression.1 = some e' ∧ e'.Alike e :=
  run_of_accepts (Parser.rereads_wholeExpression h (by unfold steps; omega))

/-- Reading an expression and writing a tree out flat undo each other.  A tree that was read without
an error stands on the ladder, and written out flat it gives back the tokens up to the end of the
source.  The other way round, every tree on the ladder can be written as tokens, and from any tokens
that show it, it is read back without an error, up to the numbers of its references. -/
theorem expression_on_ladder :
    (∀ (tokens : List Token) (firstId : Nat), (start tokens firstId).expression.2.1 = [] →
      ∃ e, (start tokens firstId).expression.1 = some e
        ∧ Shown (tokens.takeWhile fun t => !t.isEnd) e.marks ∧ e.OnLadder)
    ∧ ∀ e : Expr, e.OnLadder → (∃ u, Shown u e.marks)
      ∧ ∀ (u : List Token) (stop : Token) (firstId : Nat), Shown u e.marks → stop.isEnd = true →
        (start (u ++ [stop]) firstId).expression.2.1 = []
          ∧ ∃ e', (start (u ++ [stop]) firstId).expression.1 = some e' ∧ e'.Alike e := by
  constructor
  · intro tokens firstId hquiet
    obtain ⟨e, hresult, hyields⟩ := yields_of_expression (stop_start_isEnd tokens firstId) hquiet
    exact ⟨e, hresult, hyields.shown, hyields.onLadder⟩
  · intro e honLadder
    refine ⟨⟨_, shown_tokens e.marks⟩, fun u stop firstId hu hstop => expression_of_yields ?_⟩
    rw [(start_before_end (hu.isEnd_eq_false e.endless_marks) hstop firstId).1]
    exact ⟨hu, honLadder, Nat.zero_le _⟩

/-- Differences hang to the left. -/
theorem expression_on_ladder_difference :
    let difference (left right : Expr) : Expr := .binary .subtract 1 left right
    let name (text : String) : Expr := .variable ⟨text, 1⟩ 0
    let tree := difference (difference (name "a") (name "b")) (name "c")
    let tokens : List Token := [⟨.identifier, "a", 1⟩, ⟨.minus, "-", 1⟩, ⟨.identifier, "b", 1⟩,
      ⟨.minus, "-", 1⟩, ⟨.identifier, "c", 1⟩, ⟨.eof, "", 1⟩]
    (∃ e, (start tokens 0).expression.1 = some e ∧ e.Alike tree)
      ∧ ¬ (difference (name "a") (difference (name "b") (name "c"))).OnLadder := by
  intro difference name tree tokens
  have honLadder : tree.OnLadder := by
    simp [tree, difference, name, Expr.OnLadder, Expr.rung, BinaryOp.level, Parser.Level.rung]
  have hshown : Shown tokens.dropLast tree.marks :=
    .cons ⟨rfl, rfl, rfl⟩ (.cons ⟨rfl, rfl⟩ (.cons ⟨rfl, rfl, rfl⟩ (.cons ⟨rfl, rfl⟩
      (.cons ⟨rfl, rfl, rfl⟩ .nil))))
  refine ⟨((expression_on_ladder.2 tree honLadder).2 _ ⟨.eof, "", 1⟩ 0 hshown rfl).2, ?_⟩
  simp [difference, name, Expr.OnLadder, Expr.rung, BinaryOp.level, Parser.Level.rung]

end Cursor

end Treewalk
