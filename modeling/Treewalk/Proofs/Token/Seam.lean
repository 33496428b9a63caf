import Mathlib.Algebra.GroupWithZero.Nat
import Treewalk.Token.Lexer

/-!
# Scanning one source behind another

**A line feed ends every piece of source but an open string.**  So when a source that leaves no
string open is followed by a line feed and another source, the tokens are those of the one and
those of the other, the latter further down by the lines of the former.
-/

namespace Treewalk

/-- A token on another line. -/
def Token.move (f : Nat → Nat) (t : Token) : Token :=
  { t with line := f t.line }

@[simp]
theorem Token.isEnd_move (f : Nat → Nat) (t : Token) : (t.move f).isEnd = t.isEnd := rfl

/-- The number of lines that a source takes when another one follows. -/
def lineCount (source : String) : Nat :=
  source.toList.count '\n' + 1

namespace Lexer

/-! ### One piece -/

theorem takeWhile_seam {p : Char → Bool} (hp : p '\n' = false) (cs ds : List Char) :
    (cs ++ '\n' :: ds).takeWhile p = cs.takeWhile p := by
  induction cs with
  | nil => simp [hp]
  | cons c cs ih =>
    simp only [List.cons_append, List.takeWhile_cons, ih]

theorem dropWhile_seam {p : Char → Bool} (hp : p '\n' = false) (cs ds : List Char) :
    (cs ++ '\n' :: ds).dropWhile p = cs.dropWhile p ++ '\n' :: ds := by
  induction cs with
  | nil => simp [hp]
  | cons c cs ih =>
    simp only [List.cons_append, List.dropWhile_cons, ih]
    split <;> rfl

/-- A symbol of one character. -/
def singleSymbol (c : Char) : Piece :=
  match single? c with
  | some kind => .token kind [c]
  | none => .unexpected c

theorem symbol_eq_single {c : Char} {rest : List Char}
    (h : ∀ kind more, withEqual? c = some kind → rest ≠ '=' :: more) :
    symbol c rest = (singleSymbol c, rest) := by
  unfold symbol singleSymbol
  split
  · rename_i kind more hkind
    exact absurd rfl (h kind more hkind)
  · rcases single? c with _ | kind <;> rfl

theorem symbol_seam (c : Char) (rest ds : List Char) :
    symbol c (rest ++ '\n' :: ds) = ((symbol c rest).1, (symbol c rest).2 ++ '\n' :: ds) := by
  by_cases hjoined : ∃ kind more, withEqual? c = some kind ∧ rest = '=' :: more
  · obtain ⟨kind, more, hkind, rfl⟩ := hjoined
    simp only [symbol, List.cons_append, hkind]
  · have halone : ∀ kind more, withEqual? c = some kind → rest ≠ '=' :: more :=
      fun kind more hkind hrest => hjoined ⟨kind, more, hkind, hrest⟩
    rw [symbol_eq_single halone, symbol_eq_single]
    intro kind more hkind hrest
    rcases rest with _ | ⟨d, rest⟩
    · simp at hrest
    · rw [List.cons_append] at hrest
      cases hrest
      exact halone kind rest hkind rfl

theorem numeral_seam (c : Char) (rest ds : List Char) :
    numeral c (rest ++ '\n' :: ds) = ((numeral c rest).1, (numeral c rest).2 ++ '\n' :: ds) := by
  have hdigit : isDigit '\n' = false := by decide
  unfold numeral
  simp only [takeWhile_seam hdigit, dropWhile_seam hdigit]
  rcases rest.dropWhile isDigit with _ | ⟨d, _ | ⟨e, more⟩⟩
  · rfl
  · by_cases hd : d = '.'
    · subst hd
      rfl
    · simp [hd]
  · by_cases hd : d = '.'
    · subst hd
      simp only [List.cons_append, takeWhile_seam hdigit, dropWhile_seam hdigit]
      split <;> rfl
    · simp [hd]

theorem word_seam (c : Char) (rest ds : List Char) :
    word c (rest ++ '\n' :: ds) = ((word c rest).1, (word c rest).2 ++ '\n' :: ds) := by
  have hchar : isWordChar '\n' = false := by decide
  simp only [word, takeWhile_seam hchar, dropWhile_seam hchar]

theorem slash_of_ne {rest : List Char} (h : ∀ more, rest ≠ '/' :: more) :
    slash rest = symbol '/' rest := by
  unfold slash
  split
  · rename_i more
    exact absurd rfl (h more)
  · rfl

theorem slash_seam (rest ds : List Char) :
    slash (rest ++ '\n' :: ds) = ((slash rest).1, (slash rest).2 ++ '\n' :: ds) := by
  by_cases hcomment : ∃ more, rest = '/' :: more
  · obtain ⟨more, rfl⟩ := hcomment
    have htake := takeWhile_seam (p := fun d => d != '\n') (by decide) more ds
    have hdrop := dropWhile_seam (p := fun d => d != '\n') (by decide) more ds
    simp only [slash, List.cons_append, htake, hdrop]
  · have halone : ∀ more, rest ≠ '/' :: more := fun more hrest => hcomment ⟨more, hrest⟩
    rw [slash_of_ne halone, slash_of_ne, symbol_seam]
    intro more hrest
    rcases rest with _ | ⟨d, rest⟩
    · simp at hrest
    · rw [List.cons_append] at hrest
      cases hrest
      exact halone rest rfl

/-- The piece is not cut short by the end of the source. -/
def Piece.IsClosed : Piece → Prop
  | .openString _ => False
  | _ => True

theorem quoted_seam {rest : List Char} (h : (quoted rest).1.IsClosed) (ds : List Char) :
    quoted (rest ++ '\n' :: ds) = ((quoted rest).1, (quoted rest).2 ++ '\n' :: ds) := by
  have happend : ∀ cs : List Char, cs.dropWhile (· != '"') ≠ [] →
      (cs ++ '\n' :: ds).takeWhile (· != '"') = cs.takeWhile (· != '"')
        ∧ (cs ++ '\n' :: ds).dropWhile (· != '"') = cs.dropWhile (· != '"') ++ '\n' :: ds := by
    intro cs hcs
    induction cs with
    | nil => exact absurd rfl hcs
    | cons c cs ih =>
      simp only [List.cons_append, List.takeWhile_cons, List.dropWhile_cons] at hcs ⊢
      by_cases hc : (c != '"') = true
      · rw [if_pos hc] at hcs
        obtain ⟨htake, hdrop⟩ := ih hcs
        simp only [hc, if_true, htake, hdrop, and_self]
      · simp [hc]
  unfold quoted at h ⊢
  dsimp only at h ⊢
  rcases hrest : rest.dropWhile (· != '"') with _ | ⟨quote, after⟩
  · rw [hrest] at h
    exact h.elim
  · obtain ⟨htake, hdrop⟩ := happend rest (by rw [hrest]; simp)
    rw [htake, hdrop, hrest]
    rfl

/-- A line feed behind the source leaves the first piece as it is. -/
theorem piece_seam {c : Char} {rest : List Char} (h : (piece c rest).1.IsClosed) (ds : List Char) :
    piece c (rest ++ '\n' :: ds) = ((piece c rest).1, (piece c rest).2 ++ '\n' :: ds) := by
  unfold piece at h ⊢
  split
  · rfl
  · rename_i hblank
    rw [if_neg hblank] at h
    split
    · exact slash_seam rest ds
    · rename_i hslash
      rw [if_neg hslash] at h
      split
      · rename_i hquote
        rw [if_pos hquote] at h
        exact quoted_seam h ds
      · split
        · exact numeral_seam c rest ds
        · split
          · exact word_seam c rest ds
          · exact symbol_seam c rest ds

/-! ### All pieces -/

/-- Pieces are cut on either side of the line feed by itself. -/
theorem pieces_seam {cs : List Char} (h : ∀ p ∈ pieces cs, p.IsClosed) (ds : List Char) :
    pieces (cs ++ '\n' :: ds) = pieces cs ++ .blank '\n' :: pieces ds := by
  fun_induction pieces cs with
  | case1 =>
    rw [List.nil_append, pieces]
    rfl
  | case2 c rest first ih =>
    have hfirst := piece_seam (h _ List.mem_cons_self) ds
    rw [List.cons_append, pieces]
    simp only [hfirst]
    rw [ih fun p hp => h p (List.mem_cons_of_mem _ hp)]
    rfl

theorem newlines_pieces (cs : List Char) :
    ((pieces cs).map fun p => p.text.count '\n').sum = cs.count '\n' := by
  have h := congrArg (List.count '\n') (flatMap_text_pieces cs)
  rw [List.count_flatMap] at h
  exact h

/-! ### Items -/

/-- An item on another line. -/
def moveItem (f : Nat → Nat) : Except LexicalError Token → Except LexicalError Token
  | .ok t => .ok (t.move f)
  | .error e => .error ⟨f e.line, e.cause⟩

theorem items_shift (line k : Nat) (ps : List Piece) :
    items (line + k) ps = (items line ps).map (moveItem (· + k)) := by
  induction ps generalizing line with
  | nil => rfl
  | cons p ps ih =>
    have hline : line + k + p.text.count '\n' = line + p.text.count '\n' + k := by omega
    rcases p with ⟨kind, lexeme⟩ | c | text | c | text <;>
      simp only [items, hline, ih, List.map_cons, moveItem, Token.move]

/-- The items of pieces without the one that ends them. -/
def itemsBefore (line : Nat) (ps : List Piece) : List (Except LexicalError Token) :=
  (items line ps).dropLast

theorem items_ne_nil (line : Nat) (ps : List Piece) : items line ps ≠ [] := by
  induction ps generalizing line with
  | nil => simp [items]
  | cons p ps ih => rcases p with ⟨kind, lexeme⟩ | c | text | c | text <;> simp [items, ih]

theorem items_append (line : Nat) (ps qs : List Piece) :
    items line (ps ++ qs) = itemsBefore line ps
      ++ items (line + (ps.map fun p => p.text.count '\n').sum) qs := by
  induction ps generalizing line with
  | nil => rfl
  | cons p ps ih =>
    have hne := items_ne_nil (line + p.text.count '\n') ps
    unfold itemsBefore at ih ⊢
    rcases p with ⟨kind, lexeme⟩ | c | text | c | text <;>
      simp only [List.cons_append, items, ih, List.map_cons, List.sum_cons, Nat.add_assoc,
        List.dropLast_cons_of_ne_nil hne]

theorem items_eq (line : Nat) (ps : List Piece) :
    items line ps = itemsBefore line ps
      ++ [.ok ⟨.eof, "", line + (ps.map fun p => p.text.count '\n').sum⟩] := by
  have h := items_append line ps []
  rw [List.append_nil] at h
  exact h

/-! ### The end of the source -/

/-- The piece is not what the end of the source is taken for. -/
def Piece.IsProper (p : Piece) : Prop :=
  ∀ kind lexeme, p = .token kind lexeme → kind.sameForm .eof = false

theorem single?_isProper {c : Char} {kind : TokenKind} (h : single? c = some kind) :
    kind.sameForm .eof = false := by
  unfold single? at h
  split at h <;> cases h <;> rfl

theorem withEqual?_isProper {c : Char} {kind : TokenKind} (h : withEqual? c = some kind) :
    kind.sameForm .eof = false := by
  unfold withEqual? at h
  split at h <;> cases h <;> rfl

theorem symbol_isProper (c : Char) (rest : List Char) : (symbol c rest).1.IsProper := by
  unfold symbol
  intro kind lexeme h
  split at h
  · rename_i hequal
    cases h
    exact withEqual?_isProper hequal
  · split at h
    · rename_i hsingle
      cases h
      exact single?_isProper hsingle
    · cases h

theorem ofWord_isProper (word : String) : (TokenKind.ofWord word).sameForm .eof = false := by
  have hreserved : ∀ entry ∈ TokenKind.reserved, entry.2.sameForm .eof = false := by decide
  unfold TokenKind.ofWord
  rcases hlookup : TokenKind.reserved.lookup word with _ | kind
  · rfl
  · obtain ⟨before, after, hentries, -⟩ := List.lookup_eq_some_iff.mp hlookup
    exact hreserved (word, kind) (by rw [hentries]; simp)

theorem piece_isProper (c : Char) (rest : List Char) : (piece c rest).1.IsProper := by
  unfold piece
  split
  · intro kind lexeme h
    cases h
  · split
    · unfold slash
      split
      · intro kind lexeme h
        cases h
      · exact symbol_isProper '/' rest
    · split
      · intro kind lexeme h
        unfold quoted at h
        split at h <;> cases h
        rfl
      · split
        · intro kind lexeme h
          unfold numeral at h
          dsimp only at h
          split at h
          · split at h <;> cases h <;> rfl
          · cases h
            rfl
        · split
          · intro kind lexeme h
            cases h
            exact ofWord_isProper _
          · exact symbol_isProper c rest

theorem pieces_isProper (cs : List Char) : ∀ p ∈ pieces cs, p.IsProper := by
  fun_induction pieces cs with
  | case1 =>
    intro p hp
    cases hp
  | case2 c rest first ih =>
    intro p hp
    rcases List.mem_cons.mp hp with rfl | hp
    · exact piece_isProper c rest
    · exact ih p hp

end Lexer

open Lexer

/-! ### Whole sources -/

section Sources

variable {source : String}

/-- The items of a source without the one that ends it. -/
def ownItems (source : String) : List (Except LexicalError Token) :=
  itemsBefore 1 (pieces source.toList)

theorem scan_eq (source : String) :
    scan source = ownItems source ++ [.ok ⟨.eof, "", lineCount source⟩] := by
  have hline : 1 + source.toList.count '\n' = lineCount source := by
    unfold lineCount
    omega
  rw [scan, items_eq, newlines_pieces, hline]
  rfl

theorem closed_of_lexicalErrors_eq_nil (h : lexicalErrors source = []) :
    ∀ p ∈ pieces source.toList, p.IsClosed := by
  suffices hitems : ∀ line ps, (∀ item ∈ items line ps, ∀ e, item ≠ .error e) →
      ∀ p ∈ ps, p.IsClosed by
    refine hitems 1 _ fun item hitem e he => ?_
    have hmem := List.filterMap_eq_nil_iff.mp h item hitem
    rw [he] at hmem
    cases hmem
  intro line ps hitems
  induction ps generalizing line with
  | nil =>
    intro p hp
    cases hp
  | cons first ps ih =>
    intro p hp
    rcases first with ⟨kind, lexeme⟩ | c | text | c | text <;> simp only [items] at hitems
    · rcases List.mem_cons.mp hp with rfl | hp
      · trivial
      · exact ih _ (fun item hitem => hitems item (List.mem_cons_of_mem _ hitem)) p hp
    · rcases List.mem_cons.mp hp with rfl | hp
      · trivial
      · exact ih _ hitems p hp
    · rcases List.mem_cons.mp hp with rfl | hp
      · trivial
      · exact ih _ hitems p hp
    · exact absurd rfl (hitems _ List.mem_cons_self _)
    · exact absurd rfl (hitems _ List.mem_cons_self _)

/-- Scanning starts anew behind the line feed. -/
theorem scan_seam (h : lexicalErrors source = []) (later : String) :
    scan (source ++ "\n" ++ later)
      = ownItems source ++ (scan later).map (moveItem (· + lineCount source)) := by
  have hchars : (source ++ "\n" ++ later).toList = source.toList ++ '\n' :: later.toList := by
    simp [String.toList_append]
  have hline : 1 + source.toList.count '\n' + 1 = 1 + lineCount source := by
    unfold lineCount
    omega
  rw [scan, hchars, pieces_seam (closed_of_lexicalErrors_eq_nil h), items_append, newlines_pieces]
  show _ ++ items (1 + source.toList.count '\n' + 1) (pieces later.toList) = _
  rw [hline, items_shift]
  rfl

/-- The tokens of a source without the one that ends it. -/
def ownTokens (source : String) : List Token :=
  (ownItems source).filterMap Except.toOption

theorem tokens_eq (source : String) :
    tokens source = ownTokens source ++ [⟨.eof, "", lineCount source⟩] := by
  unfold tokens ownTokens
  rw [scan_eq, List.filterMap_append]
  rfl

theorem tokens_seam (h : lexicalErrors source = []) (later : String) :
    tokens (source ++ "\n" ++ later)
      = ownTokens source ++ (tokens later).map (Token.move (· + lineCount source)) := by
  unfold tokens ownTokens
  rw [scan_seam h, List.filterMap_append, List.filterMap_map, List.map_filterMap]
  congr 2
  funext item
  rcases item with e | t <;> rfl

theorem lexicalErrors_seam (h : lexicalErrors source = []) (later : String) :
    lexicalErrors (source ++ "\n" ++ later)
      = (lexicalErrors later).map fun e => ⟨e.line + lineCount source, e.cause⟩ := by
  unfold lexicalErrors at h ⊢
  rw [scan_eq, List.filterMap_append] at h
  have hnone := (List.append_eq_nil_iff.mp h).1
  rw [scan_seam (by rw [lexicalErrors, scan_eq, List.filterMap_append]; exact h),
    List.filterMap_append, hnone, List.nil_append, List.filterMap_map, List.map_filterMap]
  congr 1
  funext item
  rcases item with e | t <;> rfl

theorem isEnd_of_mem_ownTokens {t : Token} (h : t ∈ ownTokens source) : t.isEnd = false := by
  suffices hitems : ∀ line ps, (∀ p ∈ ps, p.IsProper) → ∀ t, .ok t ∈ itemsBefore line ps →
      t.isEnd = false by
    obtain ⟨item, hitem, ht⟩ := List.mem_filterMap.mp h
    rcases item with e | t'
    · cases ht
    · cases ht
      exact hitems 1 _ (pieces_isProper _) _ hitem
  intro line ps hps t ht
  induction ps generalizing line with
  | nil => cases ht
  | cons p ps ih =>
    have hrest : ∀ q ∈ ps, q.IsProper := fun q hq => hps q (List.mem_cons_of_mem _ hq)
    have hne := items_ne_nil (line + p.text.count '\n') ps
    unfold itemsBefore at ih ht
    rcases p with ⟨kind, lexeme⟩ | c | text | c | text <;>
      simp only [items, List.dropLast_cons_of_ne_nil hne, List.mem_cons, reduceCtorEq,
        false_or] at ht
    · rcases ht with heq | ht
      · cases heq
        exact hps _ List.mem_cons_self kind lexeme rfl
      · exact ih _ hrest ht
    · exact ih _ hrest ht
    · exact ih _ hrest ht
    · exact ih _ hrest ht
    · exact ih _ hrest ht

end Sources

end Treewalk
