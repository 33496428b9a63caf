import Mathlib.Data.List.TakeWhile
import Treewalk.Proofs.Token.Seam

/-!
# Maximal munch

**A token is the longest beginning of the remaining text that is a token at all.**  The forms of
tokens are written down here without a word on how they are found, and so is what else a piece of
source can be.  Only one division of a text follows these rules, and it is the one that sources
are cut by.
-/

namespace Treewalk

namespace Lexer

/-! ### Forms of tokens -/

/-- The symbols with their kinds. -/
def symbols : List (String × TokenKind) :=
  [("(", .leftParen), (")", .rightParen), ("\x7b", .leftBrace), ("\x7d", .rightBrace), (",", .comma),
   (".", .dot), ("-", .minus), ("+", .plus), (";", .semicolon), ("/", .slash), ("*", .star),
   ("!", .bang), ("!=", .bangEqual), ("=", .equal), ("==", .equalEqual), ("<", .less),
   ("<=", .lessEqual), (">", .greater), (">=", .greaterEqual)]

/-- A reserved word has a kind of its own, and every other word is a name. -/
def WordKind (word : String) (kind : TokenKind) : Prop :=
  (word, kind) ∈ TokenKind.reserved
    ∨ (∀ entry ∈ TokenKind.reserved, entry.1 ≠ word) ∧ kind = .identifier

/-- The lexemes of tokens, with the kinds that they have.  A string is what stands between its
    quotes, a number is made of digits with at most one point between them, and a word starts
    with a letter. -/
inductive Form : List Char → TokenKind → Prop
  | symbol {text : String} {kind : TokenKind} (h : (text, kind) ∈ symbols) : Form text.toList kind
  | string {contents : List Char} (h : '"' ∉ contents) :
    Form ('"' :: (contents ++ ['"'])) (.string (.ofList contents))
  | integer {c : Char} {digits : List Char} (h : ∀ d ∈ c :: digits, isDigit d) :
    Form (c :: digits) (.number (Decimal.ofNumeral (c :: digits) []))
  | fraction {c d : Char} {whole digits : List Char} (hwhole : ∀ x ∈ c :: whole, isDigit x)
    (hdigits : ∀ x ∈ d :: digits, isDigit x) :
    Form ((c :: whole) ++ '.' :: d :: digits)
      (.number (Decimal.ofNumeral (c :: whole) (d :: digits)))
  | word {c : Char} {rest : List Char} {kind : TokenKind} (hc : isLetter c)
    (hrest : ∀ d ∈ rest, isWordChar d) (hkind : WordKind (.ofList (c :: rest)) kind) :
    Form (c :: rest) kind

/-- What a piece is when this text comes after it. -/
def Piece.Fits (after : List Char) : Piece → Prop
  | .token kind lexeme =>
    Form lexeme kind ∧ ¬ ['/', '/'] <+: lexeme ++ after
      ∧ ∀ longer other, Form longer other → longer <+: lexeme ++ after →
        longer.length ≤ lexeme.length
  | .blank c => c ∈ [' ', '\t', '\r', '\n']
  | .comment text => ['/', '/'] <+: text ∧ '\n' ∉ text ∧ ∀ c ∈ after.head?, c = '\n'
  | .unexpected c =>
    c ∉ [' ', '\t', '\r', '\n'] ∧ c ≠ '"' ∧ ∀ lexeme kind, Form lexeme kind → ¬ lexeme <+: c :: after
  | .openString text => (∃ contents, text = '"' :: contents ∧ '"' ∉ contents) ∧ after = []

/-- The pieces divide the text, from left to right, as the rules want it. -/
inductive Munches : List Piece → List Char → Prop
  | nil : Munches [] []
  | cons {p : Piece} {ps : List Piece} {after : List Char} (h : p.Fits after)
    (hrest : Munches ps after) : Munches (p :: ps) (p.text ++ after)

/-! ### Reserved words -/

theorem wordKind_ofWord (word : String) : WordKind word (.ofWord word) := by
  unfold TokenKind.ofWord
  rcases hlookup : TokenKind.reserved.lookup word with _ | kind
  · refine Or.inr ⟨fun entry hentry heq => ?_, rfl⟩
    have hne := List.lookup_eq_none_iff.mp hlookup entry hentry
    simp [heq] at hne
  · obtain ⟨before, after, hentries, -⟩ := List.lookup_eq_some_iff.mp hlookup
    exact Or.inl (by rw [hentries]; simp)

theorem WordKind.eq_ofWord {word : String} {kind : TokenKind} (h : WordKind word kind) :
    kind = .ofWord word := by
  rcases h with hreserved | ⟨hfree, rfl⟩
  · have hall : ∀ entry ∈ TokenKind.reserved, entry.2 = .ofWord entry.1 := by
      simp only [TokenKind.reserved, List.forall_mem_cons]
      refine ⟨rfl, rfl, rfl, rfl, rfl, rfl, rfl, rfl, rfl, rfl, rfl, rfl, rfl, rfl, rfl, rfl, ?_⟩
      intro entry hentry
      cases hentry
    exact hall _ hreserved
  · have hnone : TokenKind.reserved.lookup word = none :=
      List.lookup_eq_none_iff.mpr fun entry hentry => by
        simpa using fun heq : word = entry.1 => hfree entry hentry heq.symm
    rw [TokenKind.ofWord, hnone]
    rfl

/-! ### Beginnings -/

section Beginnings

variable {p : Char → Bool} {l cs after : List Char}

/-- A beginning of one class of characters is no longer than what is taken of that class. -/
theorem length_le_takeWhile (hl : ∀ c ∈ l, p c) (after : List Char) :
    l.length ≤ ((l ++ after).takeWhile p).length := by
  rw [List.takeWhile_append_of_pos hl, List.length_append]
  exact Nat.le_add_right _ _

/-- What is of one class, up to the first character that is not. -/
theorem takeWhile_until (hl : ∀ c ∈ l, p c) {d : Char} (hd : ¬ p d) (after : List Char) :
    (l ++ d :: after).takeWhile p = l := by
  rw [List.takeWhile_append_of_pos hl, List.takeWhile_cons_of_neg hd, List.append_nil]

theorem dropWhile_until (hl : ∀ c ∈ l, p c) {d : Char} (hd : ¬ p d) (after : List Char) :
    (l ++ d :: after).dropWhile p = d :: after := by
  rw [List.dropWhile_append_of_pos hl, List.dropWhile_cons_of_neg hd]

end Beginnings

/-! ### Which rule applies -/

section Rules

variable {c : Char}

theorem isBlank_iff : isBlank c ↔ c ∈ [' ', '\t', '\r', '\n'] := by
  simp only [isBlank, Bool.or_eq_true, decide_eq_true_eq, List.mem_cons, List.not_mem_nil, or_false]
  grind

theorem isLetter_not_isDigit (hc : isLetter c) : ¬ isDigit c := by
  simp only [isLetter, isDigit, Bool.or_eq_true, decide_eq_true_eq, Char.le_def,
    UInt32.le_iff_toNat_le] at hc ⊢
  rintro ⟨hlow, hhigh⟩
  rcases hc with (⟨hlower, -⟩ | ⟨hupper, -⟩) | rfl
  · exact absurd (Nat.le_trans hlower hhigh) (by decide)
  · exact absurd (Nat.le_trans hupper hhigh) (by decide)
  · exact absurd hhigh (by decide)

/-- A class of characters tells those in it from one that is not. -/
theorem ne_of_class {p : Char → Bool} {d : Char} (hc : p c) (hd : p d = false) : c ≠ d := by
  rintro rfl
  rw [hd] at hc
  cases hc

theorem not_isBlank_of_class {p : Char → Bool} (hc : p c)
    (hp : [' ', '\t', '\r', '\n'].any p = false) : ¬ isBlank c :=
  fun hblank => List.any_eq_false.mp hp c (isBlank_iff.mp hblank) hc

theorem piece_of_isDigit (hc : isDigit c) (rest : List Char) : piece c rest = numeral c rest := by
  have hblank : ¬ isBlank c := not_isBlank_of_class hc (by decide)
  rw [piece, if_neg hblank, if_neg (ne_of_class hc (by decide)),
    if_neg (ne_of_class hc (by decide)), if_pos hc]

theorem piece_of_isLetter (hc : isLetter c) (rest : List Char) : piece c rest = word c rest := by
  have hblank : ¬ isBlank c := not_isBlank_of_class hc (by decide)
  rw [piece, if_neg hblank, if_neg (ne_of_class hc (by decide)),
    if_neg (ne_of_class hc (by decide)), if_neg (isLetter_not_isDigit hc), if_pos hc]

end Rules

/-! ### A form at the start of a text -/

/-- The text starts a comment. -/
def IsComment (cs : List Char) : Prop :=
  ['/', '/'] <+: cs

/-- The piece is a token at least this long. -/
def Piece.IsTokenOf (length : Nat) (p : Piece) : Prop :=
  ∃ kind lexeme, p = .token kind lexeme ∧ length ≤ lexeme.length

section Starts

variable {c : Char} {rest : List Char}

theorem numeral_integer
    (hrest : ∀ d more, rest.dropWhile isDigit = '.' :: d :: more → ¬ isDigit d) :
    numeral c rest = (.token (.number (Decimal.ofNumeral (c :: rest.takeWhile isDigit) []))
      (c :: rest.takeWhile isDigit), rest.dropWhile isDigit) := by
  unfold numeral
  dsimp only
  split
  · rename_i d more heq
    rw [if_neg (hrest d more heq)]
  · rfl

theorem numeral_fraction {d : Char} {more : List Char}
    (hrest : rest.dropWhile isDigit = '.' :: d :: more) (hd : isDigit d) :
    numeral c rest = (.token (.number (Decimal.ofNumeral (c :: rest.takeWhile isDigit)
        (d :: more.takeWhile isDigit)))
      ((c :: rest.takeWhile isDigit) ++ '.' :: d :: more.takeWhile isDigit),
      more.dropWhile isDigit) := by
  unfold numeral
  simp only [hrest, hd, if_true]

/-- A number that is found is at least as long as its digits. -/
theorem isTokenOf_numeral (c : Char) (rest : List Char) :
    (numeral c rest).1.IsTokenOf ((rest.takeWhile isDigit).length + 1) := by
  by_cases hfraction : ∃ d more, rest.dropWhile isDigit = '.' :: d :: more ∧ isDigit d
  · obtain ⟨d, more, hrest, hd⟩ := hfraction
    rw [numeral_fraction hrest hd]
    exact ⟨_, _, rfl, by simp⟩
  · rw [numeral_integer fun d more hrest hd => hfraction ⟨d, more, hrest, hd⟩]
    exact ⟨_, _, rfl, by simp⟩

theorem isTokenOf_symbol {kind : TokenKind} (h : single? c = some kind) (rest : List Char) :
    (symbol c rest).1.IsTokenOf 1 := by
  unfold symbol
  split
  · exact ⟨_, _, rfl, by simp⟩
  · rw [h]
    exact ⟨_, _, rfl, by simp⟩

/-- The symbols are those that are told by one character, or by one with an equals sign. -/
theorem symbols_cases {text : String} {kind : TokenKind} (h : (text, kind) ∈ symbols) :
    ∃ c, text.toList = [c] ∧ single? c = some kind
      ∨ text.toList = [c, '='] ∧ withEqual? c = some kind := by
  suffices hall : ∀ entry ∈ symbols, ∃ c, entry.1.toList = [c] ∧ single? c = some entry.2
      ∨ entry.1.toList = [c, '='] ∧ withEqual? c = some entry.2 from hall _ h
  simp only [symbols, List.forall_mem_cons]
  refine ⟨⟨'(', ?_⟩, ⟨')', ?_⟩, ⟨'{', ?_⟩, ⟨'}', ?_⟩, ⟨',', ?_⟩, ⟨'.', ?_⟩, ⟨'-', ?_⟩, ⟨'+', ?_⟩,
    ⟨';', ?_⟩, ⟨'/', ?_⟩, ⟨'*', ?_⟩, ⟨'!', ?_⟩, ⟨'!', ?_⟩, ⟨'=', ?_⟩, ⟨'=', ?_⟩, ⟨'<', ?_⟩,
    ⟨'<', ?_⟩, ⟨'>', ?_⟩, ⟨'>', ?_⟩, fun entry hentry => by cases hentry⟩ <;>
    simp [single?, withEqual?]

theorem piece_of_symbol {kind : TokenKind} (h : single? c = some kind) (hslash : c ≠ '/')
    (rest : List Char) : piece c rest = symbol c rest := by
  unfold single? at h
  split at h <;> first | exact absurd rfl hslash | rfl | cases h

theorem mem_symbols_of_single? {kind : TokenKind} (h : single? c = some kind) :
    (String.ofList [c], kind) ∈ symbols := by
  unfold single? at h
  split at h <;> cases h <;> simp [symbols]

theorem mem_symbols_of_withEqual? {kind : TokenKind} (h : withEqual? c = some kind) :
    (String.ofList [c, '='], kind) ∈ symbols := by
  unfold withEqual? at h
  split at h <;> cases h <;> simp [symbols]

theorem single?_of_withEqual? {kind : TokenKind} (h : withEqual? c = some kind) :
    c ≠ '/' ∧ ∃ alone, single? c = some alone := by
  unfold withEqual? at h
  split at h <;> first | exact ⟨by decide, _, rfl⟩ | cases h

/-- Where a form stands at the start of a text, there is a comment or a token at least as long. -/
theorem isTokenOf_form {lexeme after : List Char} {kind : TokenKind} (h : Form lexeme kind)
    (hstart : lexeme ++ after = c :: rest) :
    IsComment (c :: rest) ∨ (piece c rest).1.IsTokenOf lexeme.length := by
  cases h with
  | symbol hmem =>
    obtain ⟨first, ⟨htext, hkind⟩ | ⟨htext, hkind⟩⟩ := symbols_cases hmem
    · rw [htext, List.singleton_append] at hstart
      rw [htext]
      cases hstart
      by_cases hslash : c = '/'
      · subst hslash
        rcases rest with _ | ⟨d, more⟩
        · exact Or.inr (isTokenOf_symbol (c := '/') rfl [])
        · by_cases hd : d = '/'
          · subst hd
            exact Or.inl ⟨more, rfl⟩
          · have halone : piece '/' (d :: more) = symbol '/' (d :: more) :=
              slash_of_ne fun _ heq => hd (List.cons.inj heq).1
            rw [halone]
            exact Or.inr (isTokenOf_symbol rfl _)
      · rw [piece_of_symbol hkind hslash]
        exact Or.inr (isTokenOf_symbol hkind _)
    · rw [htext] at hstart ⊢
      cases hstart
      obtain ⟨hslash, alone, halone⟩ := single?_of_withEqual? hkind
      rw [piece_of_symbol halone hslash]
      simp only [symbol, hkind]
      exact Or.inr ⟨_, _, rfl, Nat.le_refl _⟩
  | @string contents hquote =>
    cases hstart
    right
    have hinside : ∀ d ∈ contents, (d != '"') = true := fun d hd => by
      simpa using fun heq : d = '"' => hquote (heq ▸ hd)
    show (quoted (contents ++ ['"'] ++ after)).1.IsTokenOf _
    rw [List.append_assoc, List.singleton_append, quoted,
      takeWhile_until hinside (by simp), dropWhile_until hinside (by simp)]
    exact ⟨_, _, rfl, Nat.le_refl _⟩
  | @integer first digits hdigits =>
    cases hstart
    rw [piece_of_isDigit (hdigits c List.mem_cons_self)]
    obtain ⟨kind, lexeme, hnumber, hle⟩ := isTokenOf_numeral c (digits ++ after)
    have hlength := length_le_takeWhile (fun d hd => hdigits d (List.mem_cons_of_mem _ hd)) after
    refine Or.inr ⟨kind, lexeme, hnumber, ?_⟩
    rw [List.length_cons]
    omega
  | @fraction first d whole digits hwhole hdigits =>
    simp only [List.append_assoc, List.cons_append] at hstart
    cases hstart
    rw [piece_of_isDigit (hwhole c List.mem_cons_self)]
    have hinside := fun x hx => hwhole x (List.mem_cons_of_mem c hx)
    have hpoint : ¬ isDigit '.' := by decide
    have hmore := fun x hx => hdigits x (List.mem_cons_of_mem d hx)
    rw [numeral_fraction (dropWhile_until hinside hpoint _) (hdigits d List.mem_cons_self),
      takeWhile_until hinside hpoint]
    have hlength := length_le_takeWhile hmore after
    refine Or.inr ⟨_, _, rfl, ?_⟩
    simp only [List.length_append, List.length_cons]
    omega
  | @word first tail kind hfirst htail hkind =>
    cases hstart
    rw [piece_of_isLetter hfirst]
    have hlength := length_le_takeWhile htail after
    refine Or.inr ⟨_, _, rfl, ?_⟩
    rw [List.length_cons, List.length_cons]
    exact Nat.succ_le_succ hlength

/-! ### What is found has a form -/

theorem form_of_symbol {kind : TokenKind} {lexeme : List Char}
    (h : (symbol c rest).1 = .token kind lexeme) : Form lexeme kind := by
  unfold symbol at h
  split at h
  · rename_i hkind
    cases h
    simpa using Form.symbol (mem_symbols_of_withEqual? hkind)
  · split at h
    · rename_i hkind
      cases h
      simpa using Form.symbol (mem_symbols_of_single? hkind)
    · cases h

theorem form_of_quoted {kind : TokenKind} {lexeme : List Char}
    (h : (quoted rest).1 = .token kind lexeme) : Form lexeme kind := by
  unfold quoted at h
  split at h
  · rename_i quote more hrest
    have hquote : quote = '"' := by
      have hhead := List.head?_dropWhile_not (· != '"') rest
      rw [hrest] at hhead
      simpa using hhead
    cases h
    subst hquote
    refine .string fun hmem => ?_
    have hne := List.mem_takeWhile_imp hmem
    simp at hne
  · cases h

theorem form_of_numeral {kind : TokenKind} {lexeme : List Char} (hc : isDigit c)
    (h : (numeral c rest).1 = .token kind lexeme) : Form lexeme kind := by
  have hwhole : ∀ x ∈ c :: rest.takeWhile isDigit, isDigit x := fun x hx => by
    rcases List.mem_cons.mp hx with rfl | hx
    · exact hc
    · exact List.mem_takeWhile_imp hx
  by_cases hfraction : ∃ d more, rest.dropWhile isDigit = '.' :: d :: more ∧ isDigit d
  · obtain ⟨d, more, hrest, hd⟩ := hfraction
    rw [numeral_fraction hrest hd] at h
    cases h
    refine .fraction hwhole fun x hx => ?_
    rcases List.mem_cons.mp hx with rfl | hx
    · exact hd
    · exact List.mem_takeWhile_imp hx
  · rw [numeral_integer fun d more hrest hd => hfraction ⟨d, more, hrest, hd⟩] at h
    cases h
    exact .integer hwhole

theorem form_of_word {kind : TokenKind} {lexeme : List Char} (hc : isLetter c)
    (h : (word c rest).1 = .token kind lexeme) : Form lexeme kind := by
  cases h
  exact .word hc (fun d hd => List.mem_takeWhile_imp hd) (wordKind_ofWord _)

/-- Every token that is cut off has the form of its kind. -/
theorem form_of_piece {kind : TokenKind} {lexeme : List Char}
    (h : (piece c rest).1 = .token kind lexeme) : Form lexeme kind := by
  unfold piece at h
  split at h
  · cases h
  · split at h
    · unfold slash at h
      split at h
      · cases h
      · exact form_of_symbol h
    · split at h
      · exact form_of_quoted h
      · split at h
        · exact form_of_numeral ‹_› h
        · split at h
          · exact form_of_word ‹_› h
          · exact form_of_symbol h

end Starts

/-! ### A lexeme by itself -/

theorem symbol_alone {c : Char} {kind : TokenKind} (h : single? c = some kind) :
    symbol c [] = (.token kind [c], []) := by
  rw [symbol_eq_single (by simp), singleSymbol, h]

/-- A lexeme by itself is cut off as a whole, so it is of one kind only. -/
theorem piece_of_form {lexeme : List Char} {kind : TokenKind} (h : Form lexeme kind) :
    ∃ c rest, lexeme = c :: rest ∧ piece c rest = (.token kind lexeme, []) := by
  cases h with
  | symbol hmem =>
    obtain ⟨c, ⟨htext, hkind⟩ | ⟨htext, hkind⟩⟩ := symbols_cases hmem <;> rw [htext]
    · refine ⟨c, [], rfl, ?_⟩
      by_cases hslash : c = '/'
      · subst hslash
        exact symbol_alone hkind
      · rw [piece_of_symbol hkind hslash, symbol_alone hkind]
    · obtain ⟨hslash, alone, halone⟩ := single?_of_withEqual? hkind
      refine ⟨c, ['='], rfl, ?_⟩
      rw [piece_of_symbol halone hslash]
      simp only [symbol, hkind]
  | @string contents hquote =>
    have hinside : ∀ d ∈ contents, (d != '"') = true := fun d hd => by
      simpa using fun heq : d = '"' => hquote (heq ▸ hd)
    refine ⟨'"', contents ++ ['"'], rfl, ?_⟩
    show quoted (contents ++ ['"']) = _
    rw [quoted, takeWhile_until hinside (by simp), dropWhile_until hinside (by simp)]
  | @integer c digits hdigits =>
    have hrest := fun x hx => hdigits x (List.mem_cons_of_mem c hx)
    refine ⟨c, digits, rfl, ?_⟩
    have hdrop := List.dropWhile_eq_nil_iff.mpr hrest
    rw [piece_of_isDigit (hdigits c List.mem_cons_self), numeral_integer (by simp [hdrop]), hdrop,
      List.takeWhile_eq_self_iff.mpr hrest]
  | @fraction c d whole digits hwhole hdigits =>
    have hinside := fun x hx => hwhole x (List.mem_cons_of_mem c hx)
    have hmore := fun x hx => hdigits x (List.mem_cons_of_mem d hx)
    have hpoint : ¬ isDigit '.' := by decide
    refine ⟨c, whole ++ '.' :: d :: digits, rfl, ?_⟩
    rw [piece_of_isDigit (hwhole c List.mem_cons_self),
      numeral_fraction (dropWhile_until hinside hpoint _) (hdigits d List.mem_cons_self),
      takeWhile_until hinside hpoint, List.takeWhile_eq_self_iff.mpr hmore,
      List.dropWhile_eq_nil_iff.mpr hmore]
  | @word c rest kind hc hrest hkind =>
    refine ⟨c, rest, rfl, ?_⟩
    rw [piece_of_isLetter hc, word, List.takeWhile_eq_self_iff.mpr hrest,
      List.dropWhile_eq_nil_iff.mpr hrest, hkind.eq_ofWord]

theorem Form.kind_unique {lexeme : List Char} {kind other : TokenKind} (h : Form lexeme kind)
    (hother : Form lexeme other) : other = kind := by
  obtain ⟨c, rest, rfl, hpiece⟩ := piece_of_form h
  obtain ⟨c', rest', heq, hpiece'⟩ := piece_of_form hother
  cases heq
  rw [hpiece] at hpiece'
  cases hpiece'
  rfl

theorem Form.ne_nil {lexeme : List Char} {kind : TokenKind} (h : Form lexeme kind) :
    lexeme ≠ [] := by
  obtain ⟨c, rest, rfl, -⟩ := piece_of_form h
  exact List.cons_ne_nil _ _

/-! ### The piece that is cut off fits, and no other -/

section Fitting

variable {c : Char} {rest after : List Char}

/-- At the start of a text that starts no comment, the piece is the longest form if there is one. -/
theorem isTokenOf_prefix {lexeme : List Char} {kind : TokenKind} (h : Form lexeme kind)
    (hstart : lexeme <+: c :: rest) (hcomment : ¬ IsComment (c :: rest)) :
    (piece c rest).1.IsTokenOf lexeme.length := by
  obtain ⟨after, hafter⟩ := hstart
  exact (isTokenOf_form h hafter).resolve_left hcomment

theorem piece_of_isComment (h : IsComment (c :: rest)) :
    ∃ more, c = '/' ∧ rest = '/' :: more ∧ piece c rest
      = (.comment ('/' :: '/' :: more.takeWhile (· != '\n')), more.dropWhile (· != '\n')) := by
  obtain ⟨more, hmore⟩ := h
  cases hmore
  exact ⟨more, rfl, rfl, rfl⟩

theorem fits_comment {text : List Char} (hpiece : piece c rest = (.comment text, after))
    (h : IsComment (c :: rest)) : (Piece.comment text).Fits after := by
  obtain ⟨more, rfl, rfl, hcomment⟩ := piece_of_isComment h
  rw [hcomment] at hpiece
  cases hpiece
  refine ⟨⟨_, rfl⟩, fun hmem => ?_, fun d hd => ?_⟩
  · simp only [List.mem_cons, Char.reduceEq, false_or] at hmem
    simpa using List.mem_takeWhile_imp hmem
  · have hhead := List.head?_dropWhile_not (· != '\n') more
    rw [hd] at hhead
    simpa using hhead

theorem fits_token {kind : TokenKind} {lexeme : List Char}
    (hpiece : piece c rest = (.token kind lexeme, after)) (hcomment : ¬ IsComment (c :: rest)) :
    (Piece.token kind lexeme).Fits after := by
  have happend := piece_append c rest
  rw [hpiece] at happend
  have htext : lexeme ++ after = c :: rest := happend
  refine ⟨form_of_piece (congrArg Prod.fst hpiece), htext ▸ hcomment,
    fun longer other h hstart => ?_⟩
  rw [htext] at hstart
  obtain ⟨_, _, hfound, hle⟩ := isTokenOf_prefix h hstart hcomment
  rw [hpiece] at hfound
  cases hfound
  exact hle

theorem fits_unexpected (hpiece : piece c rest = (.unexpected c, after)) (hblank : ¬ isBlank c)
    (hquote : c ≠ '"') (hcomment : ¬ IsComment (c :: rest)) : (Piece.unexpected c).Fits after := by
  have happend := piece_append c rest
  rw [hpiece] at happend
  have hafter : after = rest := (List.cons.inj happend).2
  subst hafter
  refine ⟨fun hmem => hblank (isBlank_iff.mpr hmem), hquote, fun lexeme kind h hstart => ?_⟩
  obtain ⟨_, _, hfound, -⟩ := isTokenOf_prefix h hstart hcomment
  rw [hpiece] at hfound
  cases hfound

theorem quoted_cases (rest : List Char) :
    (∃ kind lexeme after, quoted rest = (.token kind lexeme, after))
      ∨ '"' ∉ rest ∧ quoted rest = (.openString ('"' :: rest), []) := by
  unfold quoted
  rcases hrest : rest.dropWhile (· != '"') with _ | ⟨quote, more⟩
  · have hall := List.dropWhile_eq_nil_iff.mp hrest
    refine Or.inr ⟨fun hmem => by simpa using hall '"' hmem, ?_⟩
    simp only [List.takeWhile_eq_self_iff.mpr hall]
  · exact Or.inl ⟨_, _, _, rfl⟩

theorem symbol_cases (c : Char) (rest : List Char) :
    (∃ kind lexeme after, symbol c rest = (.token kind lexeme, after))
      ∨ symbol c rest = (.unexpected c, rest) := by
  unfold symbol
  split
  · exact Or.inl ⟨_, _, _, rfl⟩
  · split
    · exact Or.inl ⟨_, _, _, rfl⟩
    · exact Or.inr rfl

theorem numeral_is_token (c : Char) (rest : List Char) :
    ∃ kind lexeme after, numeral c rest = (.token kind lexeme, after) := by
  obtain ⟨kind, lexeme, hnumber, -⟩ := isTokenOf_numeral c rest
  exact ⟨kind, lexeme, (numeral c rest).2, Prod.ext hnumber rfl⟩

/-- The piece that is cut off follows the rules. -/
theorem fits_piece (c : Char) (rest : List Char) : (piece c rest).1.Fits (piece c rest).2 := by
  have htoken : ¬ IsComment (c :: rest) → ∀ found,
      (∃ kind lexeme after, found = (Piece.token kind lexeme, after)) → piece c rest = found →
      (piece c rest).1.Fits (piece c rest).2 := by
    rintro hcomment _ ⟨kind, lexeme, after, rfl⟩ hpiece
    rw [hpiece]
    exact fits_token hpiece hcomment
  by_cases hblank : isBlank c
  · have hpiece : piece c rest = (.blank c, rest) := by rw [piece, if_pos hblank]
    rw [hpiece]
    exact isBlank_iff.mp hblank
  by_cases hcomment : IsComment (c :: rest)
  · obtain ⟨more, -, -, hpiece⟩ := piece_of_isComment hcomment
    rw [hpiece]
    exact fits_comment hpiece hcomment
  by_cases hquote : c = '"'
  · subst hquote
    have hpiece : piece '"' rest = quoted rest := rfl
    rcases quoted_cases rest with hfound | ⟨hnone, hopen⟩
    · exact htoken hcomment _ hfound hpiece
    · rw [hpiece, hopen]
      exact ⟨⟨rest, rfl, hnone⟩, rfl⟩
  by_cases hdigit : isDigit c
  · exact htoken hcomment _ (numeral_is_token c rest) (piece_of_isDigit hdigit rest)
  by_cases hletter : isLetter c
  · exact htoken hcomment _ ⟨_, _, _, rfl⟩ (piece_of_isLetter hletter rest)
  have hpiece : piece c rest = symbol c rest := by
    by_cases hslash : c = '/'
    · subst hslash
      exact slash_of_ne fun more hmore => hcomment ⟨more, by rw [hmore]; rfl⟩
    · rw [piece, if_neg hblank, if_neg hslash, if_neg hquote, if_neg hdigit, if_neg hletter]
  rcases symbol_cases c rest with hfound | hunexpected
  · exact htoken hcomment _ hfound hpiece
  · rw [hpiece, hunexpected]
    exact fits_unexpected (hpiece.trans hunexpected) hblank hquote hcomment

theorem isComment_of_fits {text : List Char} (h : (Piece.comment text).Fits after)
    (htext : text ++ after = c :: rest) : IsComment (c :: rest) := by
  obtain ⟨⟨body, rfl⟩, -⟩ := h
  exact ⟨body ++ after, htext⟩

theorem eq_piece_of_token {kind : TokenKind} {lexeme : List Char}
    (h : (Piece.token kind lexeme).Fits after) (htext : lexeme ++ after = c :: rest) :
    .token kind lexeme = (piece c rest).1 := by
  obtain ⟨hform, hcomment, hlongest⟩ := h
  rw [htext] at hcomment hlongest
  obtain ⟨other, longer, hpiece, hle⟩ := isTokenOf_prefix hform ⟨after, htext⟩ hcomment
  have hfound : Form longer other := form_of_piece hpiece
  have happend := piece_append c rest
  rw [hpiece] at happend
  have hge := hlongest longer other hfound ⟨_, happend⟩
  have hsame : longer = lexeme :=
    (List.append_inj (happend.trans htext.symm) (Nat.le_antisymm hge hle)).1
  subst hsame
  rw [hpiece, hform.kind_unique hfound]

theorem eq_piece_of_comment {text : List Char} (h : (Piece.comment text).Fits after)
    (htext : text ++ after = c :: rest) : .comment text = (piece c rest).1 := by
  obtain ⟨more, rfl, rfl, hpiece⟩ := piece_of_isComment (isComment_of_fits h htext)
  obtain ⟨⟨body, rfl⟩, hline, hend⟩ := h
  have hmore : body ++ after = more := by simpa using htext
  have hbody : ∀ d ∈ body, (d != '\n') = true := fun d hd => by
    simpa using fun heq : d = '\n' => hline (heq ▸ List.mem_append_right _ hd)
  rw [hpiece, ← hmore]
  rcases after with _ | ⟨d, after⟩
  · rw [List.append_nil, List.takeWhile_eq_self_iff.mpr hbody]
    rfl
  · cases hend d rfl
    rw [takeWhile_until hbody (by simp)]
    rfl

theorem eq_piece_of_unexpected {d : Char} (h : (Piece.unexpected d).Fits after)
    (htext : d :: after = c :: rest) : .unexpected d = (piece c rest).1 := by
  cases htext
  obtain ⟨hblank, hquote, hform⟩ := h
  have hfits := fits_piece c rest
  have happend := piece_append c rest
  rcases hpiece : (piece c rest).1 with ⟨kind, lexeme⟩ | e | text | e | text <;>
    rw [hpiece] at hfits happend
  · exact absurd ⟨_, happend⟩ (hform lexeme kind hfits.1)
  · cases (List.cons.inj happend).1
    exact absurd hfits hblank
  · obtain ⟨more, rfl, rfl, -⟩ := piece_of_isComment (isComment_of_fits hfits happend)
    have hslash : Form ['/'] .slash := Form.symbol (show ("/", .slash) ∈ symbols by simp [symbols])
    exact absurd ⟨_, rfl⟩ (hform ['/'] .slash hslash)
  · cases (List.cons.inj happend).1
    rfl
  · obtain ⟨⟨contents, rfl, -⟩, -⟩ := hfits
    exact absurd (List.cons.inj happend).1.symm hquote

/-- No other piece follows the rules. -/
theorem eq_piece_of_fits {p : Piece} (h : p.Fits after) (htext : p.text ++ after = c :: rest) :
    p = (piece c rest).1 := by
  cases p with
  | token kind lexeme => exact eq_piece_of_token h htext
  | blank d =>
    cases (List.cons.inj htext).1
    rw [piece, if_pos (isBlank_iff.mpr h)]
  | comment text => exact eq_piece_of_comment h htext
  | unexpected d => exact eq_piece_of_unexpected h htext
  | openString text =>
    obtain ⟨⟨contents, rfl, hnone⟩, rfl⟩ := h
    rw [List.append_nil] at htext
    cases htext
    have hall : ∀ d ∈ rest, (d != '"') = true := fun d hd => by
      simpa using fun heq : d = '"' => hnone (heq ▸ hd)
    show _ = (quoted rest).1
    simp only [quoted, List.takeWhile_eq_self_iff.mpr hall, List.dropWhile_eq_nil_iff.mpr hall]

end Fitting

/-! ### All pieces -/

theorem Piece.Fits.text_ne_nil {p : Piece} {after : List Char} (h : p.Fits after) :
    p.text ≠ [] := by
  cases p with
  | token kind lexeme => exact h.1.ne_nil
  | blank c => exact List.cons_ne_nil _ _
  | comment text =>
    obtain ⟨⟨body, rfl⟩, -⟩ := h
    exact List.cons_ne_nil _ _
  | unexpected c => exact List.cons_ne_nil _ _
  | openString text =>
    obtain ⟨⟨contents, rfl, -⟩, -⟩ := h
    exact List.cons_ne_nil _ _

/-- The pieces that a text is cut into follow the rules, and nothing else does. -/
theorem munches_iff {ps : List Piece} {cs : List Char} : Munches ps cs ↔ ps = pieces cs := by
  constructor
  · intro h
    induction h with
    | nil => rw [pieces]
    | @cons p ps after hfits _ ih =>
      rcases htext : p.text ++ after with _ | ⟨c, rest⟩
      · exact absurd (List.append_eq_nil_iff.mp htext).1 hfits.text_ne_nil
      · have hp := eq_piece_of_fits hfits htext
        have happend := piece_append c rest
        rw [← hp, ← htext] at happend
        rw [pieces, ← hp, List.append_cancel_left happend, ih]
  · rintro rfl
    fun_induction pieces cs with
    | case1 => exact .nil
    | case2 c rest first ih =>
      have h := Munches.cons (fits_piece c rest) ih
      rwa [piece_append] at h

/-- What is reported of a piece, if anything: a token, or why it is none. -/
def Piece.report? : Piece → Option (Except Malformed (TokenKind × String))
  | .token kind lexeme => some (.ok (kind, .ofList lexeme))
  | .unexpected c => some (.error (.unexpectedCharacter c))
  | .openString _ => some (.error .unterminatedString)
  | .blank _ | .comment _ => none

/-- An item without its line. -/
def withoutLine : Except LexicalError Token → Except Malformed (TokenKind × String)
  | .ok t => .ok (t.kind, t.lexeme)
  | .error e => .error e.cause

theorem withoutLine_items (line : Nat) (ps : List Piece) :
    (items line ps).map withoutLine = ps.filterMap Piece.report? ++ [.ok (.eof, "")] := by
  induction ps generalizing line with
  | nil => rfl
  | cons p ps ih =>
    rcases p with ⟨kind, lexeme⟩ | c | text | c | text <;>
      simp only [items, List.map_cons, ih, List.filterMap_cons, Piece.report?, withoutLine,
        List.cons_append]

/-! ### Whole sources -/

/-- A token has the kind of a reserved word just if that word is its whole lexeme. -/
theorem Form.reserved_iff {lexeme : List Char} {kind reserved : TokenKind} (h : Form lexeme kind)
    {word : String} (hword : (word, reserved) ∈ TokenKind.reserved) :
    kind = reserved ↔ String.ofList lexeme = word := by
  have hlate : ∀ entry ∈ TokenKind.reserved, 22 ≤ entry.2.ctorIdx := by decide
  have hearly : ∀ entry ∈ symbols, entry.2.ctorIdx < 22 := by decide
  have hdistinct : ∀ entry ∈ TokenKind.reserved, ∀ other ∈ TokenKind.reserved,
      entry.2.ctorIdx = other.2.ctorIdx → entry.1 = other.1 := by decide
  have hletters : ∀ entry ∈ TokenKind.reserved, ∀ c rest, entry.1.toList = c :: rest →
      isLetter c ∧ ∀ d ∈ rest, isWordChar d := by
    have hall : ∀ entry ∈ TokenKind.reserved, (entry.1.toList.head?.all isLetter) = true
        ∧ entry.1.toList.tail.all isWordChar = true := by decide
    intro entry hentry c rest htext
    obtain ⟨hc, hrest⟩ := hall entry hentry
    rw [htext] at hc hrest
    exact ⟨hc, List.all_eq_true.mp hrest⟩
  constructor
  · rintro rfl
    have hreserved := hlate _ hword
    cases h with
    | symbol hmem => exact absurd (hearly _ hmem) (Nat.not_lt.mpr hreserved)
    | string _ => exact absurd hreserved (show ¬ 22 ≤ 20 by decide)
    | integer _ => exact absurd hreserved (show ¬ 22 ≤ 21 by decide)
    | fraction _ _ => exact absurd hreserved (show ¬ 22 ≤ 21 by decide)
    | word _ _ hkind =>
      rcases hkind with hmem | ⟨-, rfl⟩
      · exact hdistinct _ hmem _ hword rfl
      · exact absurd hreserved (show ¬ 22 ≤ 19 by decide)
  · rintro rfl
    obtain ⟨c, rest, rfl⟩ : ∃ c rest, lexeme = c :: rest := List.exists_cons_of_ne_nil h.ne_nil
    obtain ⟨hc, hrest⟩ := hletters _ hword c rest String.toList_ofList
    exact (h.kind_unique (.word hc hrest (Or.inl hword))).symm

theorem form_of_munches {ps : List Piece} {cs : List Char} (h : Munches ps cs) {kind : TokenKind}
    {lexeme : List Char} (hmem : .token kind lexeme ∈ ps) : Form lexeme kind := by
  induction h with
  | nil => cases hmem
  | cons hfits _ ih =>
    rcases List.mem_cons.mp hmem with rfl | hrest
    · exact hfits.1
    · exact ih hrest

end Lexer

open Lexer

/-- The tokens of a source have one of the forms, except for the last one. -/
theorem form_of_mem_tokens {source : String} {t : Token} (ht : t ∈ tokens source) :
    t.kind = .eof ∨ ∃ lexeme, Form lexeme t.kind ∧ t.lexeme = .ofList lexeme := by
  obtain ⟨item, hitem, hok⟩ := List.mem_filterMap.mp ht
  rcases item with e | t'
  · cases hok
  cases hok
  have hreport := List.mem_map_of_mem (f := withoutLine) hitem
  rw [scan, withoutLine_items, List.mem_append] at hreport
  rcases hreport with hpiece | hend
  · obtain ⟨p, hp, hreport⟩ := List.mem_filterMap.mp hpiece
    rcases p with ⟨kind, lexeme⟩ | c | text | c | text <;>
      simp only [Piece.report?, withoutLine, Option.some.injEq, Except.ok.injEq, Prod.mk.injEq,
        reduceCtorEq] at hreport
    obtain ⟨rfl, hlexeme⟩ := hreport
    exact Or.inr ⟨lexeme, form_of_munches (munches_iff.mpr rfl) hp, hlexeme.symm⟩
  · simp only [withoutLine, List.mem_singleton, Except.ok.injEq, Prod.mk.injEq] at hend
    exact Or.inl hend.1

end Treewalk
