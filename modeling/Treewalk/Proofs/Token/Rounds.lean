import Treewalk.Proofs.Syntax.Comparing
import Treewalk.Proofs.Token.Lines
import Treewalk.Proofs.Token.Scanning

/-!
# What a scanner reads

**In each round a scanner reads the first piece of what is left.**  So its calls give the items of the
source one after another, and the source is divided as the rules for pieces want it.
-/

namespace Treewalk

open Lexer

namespace Scanner

/-! ### Pieces -/

/-- What a round says of a piece that ends on this line. -/
def result (line : Nat) : Piece → Except LexicalError Unit
  | .token _ _ | .blank _ | .comment _ => .ok ⟨⟩
  | .unexpected c => .error ⟨line, .unexpectedCharacter c⟩
  | .openString _ => .error ⟨line, .unterminatedString⟩

/-- The kind of token that a piece is, if it is one. -/
def kind? : Piece → Option TokenKind
  | .token kind _ => some kind
  | .blank _ | .comment _ | .unexpected _ | .openString _ => none

/-- From here on the scanner finds this piece behind its mark, which stands on this line, and what
    is left of the source. -/
def Finds (x : Scanning (Except LexicalError Unit)) (s : Scanner) (line : Nat)
    (before : List Char) (found : Piece × List Char) : Prop :=
  ∃ later, x s = .ok (result later.line found.1) later
    ∧ later.Stands before found.1.text found.2
    ∧ later.line = line + found.1.feeds
    ∧ later.pending = kind? found.1

section Finds

variable {s : Scanner} {line : Nat} {before text rest : List Char} {c : Char}
  {memchr : UInt8 → Array UInt8 → Option Nat}

theorem Finds.bind {α : Type} {x : Scanning α} {f : α → Scanning (Except LexicalError Unit)}
    {a : α} {middle : Scanner} {found : Piece × List Char} (hx : x s = .ok a middle)
    (h : Finds (f a) middle line before found) : Finds (x >>= f) s line before found := by
  obtain ⟨later, hrest, hlater⟩ := h
  exact ⟨later, (bind_of_ok hx).trans hrest, hlater⟩

theorem finds_recognise {kind : TokenKind} (h : s.Stands before text rest)
    (hline : s.line = line + (contents kind).count '\n') :
    Finds (recognise kind) s line before (.token kind text, rest) :=
  ⟨_, rfl, ⟨h.splits, h.start, h.curr⟩, hline, rfl⟩

theorem finds_refuse {cause : Malformed} {p : Piece} (h : s.Stands before p.text rest)
    (hp : ∀ line, result line p = .error ⟨line, cause⟩) (hline : s.line = line + p.feeds)
    (hpending : s.pending = kind? p) : Finds (refuse cause) s line before (p, rest) :=
  ⟨s, congrArg (EStateM.Result.ok · s) (hp s.line).symm, h, hline, hpending⟩

theorem finds_symbol {kind : TokenKind} (h : s.Stands before [c] rest)
    (halone : single? c = some kind) (hwith : withEqual? c = none) (hslash : c ≠ '/')
    (hkind : contents kind = []) :
    Finds (recognise kind) s s.line before (piece c rest) := by
  have hpiece : piece c rest = (.token kind [c], rest) := by
    rw [piece_of_symbol halone hslash, symbol_eq_single, singleSymbol, halone]
    intro longer more hlonger
    rw [hwith] at hlonger
    cases hlonger
  rw [hpiece]
  exact finds_recognise h (by rw [hkind]; rfl)

theorem finds_operator {longer alone : TokenKind} (h : s.Stands before [c] rest)
    (halone : single? c = some alone) (hwith : withEqual? c = some longer)
    (hlonger : contents longer = []) (hkind : contents alone = []) :
    Finds (operator longer alone) s s.line before (piece c rest) := by
  have hequal : ('=' : Char).toNat < 128 := by decide
  rw [piece_of_symbol halone (single?_of_withEqual? hwith).1]
  by_cases hrest : rest.head? = some '='
  · obtain ⟨more, rfl⟩ := List.head?_eq_some_iff.mp hrest
    have hpiece : symbol c ('=' :: more) = (.token longer [c, '='], more) := by
      simp only [symbol, hwith]
    rw [hpiece]
    exact Finds.bind (h.matchByte_true hequal)
      (finds_recognise (h.advance_ascii hequal).2 (by rw [hlonger]; rfl))
  · have hpiece : symbol c rest = (.token alone [c], rest) := by
      rw [symbol_eq_single, singleSymbol, halone]
      rintro _ more - rfl
      exact hrest rfl
    rw [hpiece]
    exact Finds.bind (h.matchByte_false hequal hrest) (finds_recognise h (by rw [hkind]; rfl))

theorem finds_blank (h : s.Stands before [c] rest) (hnone : s.pending = none) (hc : isBlank c)
    (hfeed : c ≠ '\n') : Finds (pure (.ok ⟨⟩)) s s.line before (piece c rest) := by
  rw [piece, if_pos hc]
  refine ⟨s, rfl, h, ?_, hnone⟩
  rw [Piece.feeds, if_neg hfeed, Nat.add_zero]

theorem finds_newLine (h : s.Stands before ['\n'] rest) (hnone : s.pending = none) :
    Finds (do newLine; return .ok ⟨⟩) s s.line before (piece '\n' rest) :=
  ⟨_, rfl, ⟨h.splits, h.start, h.curr⟩, rfl, hnone⟩

theorem finds_slash (hm : FindsFirst memchr) (h : s.Stands before ['/'] rest)
    (hnone : s.pending = none) : Finds (slash memchr) s s.line before (piece '/' rest) := by
  have hslash : ('/' : Char).toNat < 128 := by decide
  by_cases hrest : rest.head? = some '/'
  · obtain ⟨more, rfl⟩ := List.head?_eq_some_iff.mp hrest
    have hmore := (h.advance_ascii hslash).2
    have hcomment : passComment memchr (s.further 1) = .ok ⟨⟩ _ :=
      hmore.passComment_eq hm
    refine Finds.bind (h.matchByte_true hslash) (Finds.bind hcomment ?_)
    exact ⟨_, rfl, hmore.further_takeWhile (· != '\n'), rfl, hnone⟩
  · have hpiece : piece '/' rest = (.token .slash ['/'], rest) := by
      refine (slash_of_ne fun more hmore => hrest (by rw [hmore]; rfl)).trans ?_
      rw [symbol_eq_single, singleSymbol]
      · rfl
      · rintro _ _ hlonger
        cases hlonger
    rw [hpiece]
    exact Finds.bind (h.matchByte_false hslash hrest) (finds_recognise h rfl)

theorem finds_string (h : s.Stands before ['"'] rest) (hnone : s.pending = none) :
    Finds string s s.line before (piece '"' rest) := by
  obtain ⟨middle, hpass, hmiddle, hline, hpending⟩ := h.passContents_eq
  refine Finds.bind hpass (Finds.bind rfl ?_)
  rw [hmiddle.isAtEnd_eq]
  rcases hrest : rest.dropWhile (· != '"') with _ | ⟨quote, more⟩
  · have hpiece : piece '"' rest = (.openString ('"' :: rest.takeWhile (· != '"')), []) := by
      show quoted rest = _
      rw [quoted, hrest]
    rw [hpiece]
    rw [hrest] at hmiddle
    refine finds_refuse hmiddle (fun _ => rfl) ?_ (hpending.trans hnone)
    rw [hline, Piece.feeds, List.count_cons_of_ne (by decide)]
  · have hquote : quote = '"' := by
      have hhead := List.head?_dropWhile_not (· != '"') rest
      rw [hrest] at hhead
      simpa using hhead
    subst hquote
    have hpiece : piece '"' rest
        = (.token (.string (.ofList (rest.takeWhile (· != '"'))))
          ('"' :: (rest.takeWhile (· != '"') ++ ['"'])), more) := by
      show quoted rest = _
      rw [quoted, hrest]
    rw [hpiece]
    rw [hrest] at hmiddle
    obtain ⟨hadvance, hclosed⟩ := hmiddle.advance_ascii (by decide)
    have hcount : middle.line
        = s.line + (contents (.string (.ofList (rest.takeWhile (· != '"'))))).count '\n' := by
      rw [contents, String.toList_ofList]
      exact hline
    exact Finds.bind hadvance
      (Finds.bind (hclosed.between (by decide)) (finds_recognise hclosed hcount))

/-! #### Numbers -/

theorem ofLexeme?_integer {whole : List Char} (h : ∀ d ∈ whole, isDigit d) :
    Decimal.ofLexeme? (.ofList whole) = some (Decimal.ofNumeral whole []) := by
  rw [Decimal.ofLexeme?, String.toList_ofList, List.dropWhile_eq_nil_iff.mpr h,
    List.takeWhile_eq_self_iff.mpr h]

theorem ofLexeme?_fraction {whole fraction : List Char} (h : ∀ d ∈ whole, isDigit d)
    (hfraction : ∀ d ∈ fraction, isDigit d) :
    Decimal.ofLexeme? (.ofList (whole ++ '.' :: fraction))
      = some (Decimal.ofNumeral whole fraction) := by
  have hpoint : ¬ isDigit '.' := by decide
  rw [Decimal.ofLexeme?, String.toList_ofList, takeWhile_until h hpoint, dropWhile_until h hpoint]
  exact if_pos ⟨rfl, List.all_eq_true.mpr hfraction⟩

theorem finds_numeral {n : Float} (h : s.Stands before text rest)
    (hn : Decimal.ofLexeme? (.ofList text) = some n) :
    Finds (do recognise (.number ((Decimal.ofLexeme? (← lexeme)).getD 0))) s s.line before
      (.token (.number n) text, rest) := by
  refine Finds.bind h.lexeme_eq ?_
  rw [hn]
  exact finds_recognise h rfl

/-- A point is passed only if a digit follows. -/
theorem Stands.point_iff (h : s.Stands before text rest) :
    (decide (charOf s.peek = '.') && isDigit (charOf s.peekNext)) = true
      ↔ ∃ d more, rest = '.' :: d :: more ∧ isDigit d := by
  have hpoint : decide (charOf s.peek = '.') = rest.head?.any (· == '.') :=
    h.class_peek (ofAscii_beq (by decide)) (by decide)
  rw [hpoint]
  rcases rest with _ | ⟨c, rest⟩
  · simp
  · by_cases hc : c = '.'
    · subst hc
      rw [h.class_peekNext (by decide) ofAscii_isDigit (by decide)]
      cases rest <;> simp
    · simp [hc]

theorem finds_number (h : s.Stands before [c] rest) (hc : isDigit c) :
    Finds number s s.line before (piece c rest) := by
  have hdigits : ∀ {cs : List Char}, ∀ d ∈ cs.takeWhile isDigit, isDigit d :=
    fun _ hd => List.mem_takeWhile_imp hd
  have hwhole : ∀ d ∈ c :: rest.takeWhile isDigit, isDigit d :=
    List.forall_mem_cons.mpr ⟨hc, hdigits⟩
  obtain ⟨hpass, hinteger⟩ := h.passWhile_eq ofAscii_isDigit (by decide)
  rw [piece_of_isDigit hc]
  refine Finds.bind hpass (Finds.bind rfl ?_)
  by_cases hfraction : ∃ d more, rest.dropWhile isDigit = '.' :: d :: more ∧ isDigit d
  · rw [if_pos (hinteger.point_iff.mpr hfraction)]
    obtain ⟨d, more, hrest, hd⟩ := hfraction
    rw [hrest] at hinteger
    obtain ⟨hadvance, hpoint⟩ := hinteger.advance_ascii (by decide)
    obtain ⟨hmore, hbehind⟩ := hpoint.passWhile_eq ofAscii_isDigit (by decide)
    rw [List.takeWhile_cons_of_pos hd] at hmore hbehind
    rw [List.dropWhile_cons_of_pos hd] at hbehind
    have htext : [c] ++ rest.takeWhile isDigit ++ ['.'] ++ d :: more.takeWhile isDigit
        = (c :: rest.takeWhile isDigit) ++ '.' :: d :: more.takeWhile isDigit := by
      simp only [List.append_assoc, List.cons_append, List.nil_append]
    rw [htext] at hbehind
    have hdecimals : ∀ x ∈ d :: more.takeWhile isDigit, isDigit x :=
      List.forall_mem_cons.mpr ⟨hd, hdigits⟩
    rw [numeral_fraction hrest hd]
    exact Finds.bind hadvance
      (Finds.bind hmore (finds_numeral hbehind (ofLexeme?_fraction hwhole hdecimals)))
  · rw [if_neg (mt hinteger.point_iff.mp hfraction),
      numeral_integer fun d more hrest hd => hfraction ⟨d, more, hrest, hd⟩]
    exact finds_numeral hinteger (ofLexeme?_integer hwhole)

theorem finds_identifier (h : s.Stands before [c] rest) (hc : isLetter c) :
    Finds identifier s s.line before (piece c rest) := by
  obtain ⟨hpass, hbehind⟩ := h.passWhile_eq ofAscii_isWordChar (by decide)
  rw [piece_of_isLetter hc]
  refine Finds.bind hpass (Finds.bind hbehind.lexeme_eq ?_)
  refine finds_recognise hbehind ?_
  rw [contents_of_wordKind (wordKind_ofWord _)]
  rfl

theorem piece_of_unexpected (hblank : ¬ isBlank c) (hquote : c ≠ '"') (hdigit : ¬ isDigit c)
    (hletter : ¬ isLetter c) (hsingle : single? c = none) (rest : List Char) :
    piece c rest = (.unexpected c, rest) := by
  have hslash : c ≠ '/' := by
    rintro rfl
    cases hsingle
  rw [piece, if_neg hblank, if_neg hslash, if_neg hquote, if_neg hdigit, if_neg hletter,
    symbol_eq_single, singleSymbol, hsingle]
  intro longer more hlonger
  obtain ⟨-, alone, halone⟩ := single?_of_withEqual? hlonger
  rw [hsingle] at halone
  cases halone

theorem startingWith_of_wide (hc : 128 ≤ c.toNat) : startingWith memchr c = unexpected := by
  unfold startingWith
  split
  case h_21 =>
    rw [if_neg (not_class_of_wide ofAscii_isDigit (by decide) hc),
      if_neg (not_class_of_wide ofAscii_isLetter (by decide) hc)]
  all_goals exact absurd hc (by decide)

theorem piece_of_wide (hc : 128 ≤ c.toNat) (rest : List Char) :
    piece c rest = (.unexpected c, rest) := by
  have hsingle : single? c = none := by
    unfold single?
    split
    case h_16 => rfl
    all_goals exact absurd hc (by decide)
  refine piece_of_unexpected (fun hblank => ?_) ?_
    (not_class_of_wide ofAscii_isDigit (by decide) hc)
    (not_class_of_wide ofAscii_isLetter (by decide) hc) hsingle rest
  · have hmem := isBlank_iff.mp hblank
    simp only [List.mem_cons, List.not_mem_nil, or_false] at hmem
    rcases hmem with rfl | rfl | rfl | rfl <;> exact absurd hc (by decide)
  · rintro rfl
    exact absurd hc (by decide)

/-- Whatever has been read of the character, it is passed as a whole. -/
theorem finds_unexpected (hsplits : s.source.toList = before ++ c :: rest)
    (hstart : s.start = byteLength before) (hnone : s.pending = none) :
    Finds unexpected s s.line before (.unexpected c, rest) := by
  have hall : s.source.toList = before ++ (c :: rest) ++ [] := by rw [hsplits, List.append_nil]
  have hpart : part (·.start) (·.bytes.size) s = .ok (.ofList (c :: rest)) s := by
    have htext := slice_of_splits hall
    rw [← byteLength_append, ← hsplits, ← hstart] at htext
    have hsize : byteLength s.source.toList = s.bytes.size := by
      rw [byteLength, ← toList_bytes, Array.length_toList]
    rw [part, ← hsize, htext]
  refine Finds.bind hpart (Finds.bind rfl ?_)
  rw [String.toList_ofList]
  refine finds_refuse ⟨?_, hstart, ?_⟩ (fun _ => rfl) rfl hnone
  · rw [hsplits]
    simp [Piece.text]
  · exact congrArg (s.start + ·) (byteLength_singleton c).symm

theorem finds_startingWith (hm : FindsFirst memchr) (h : s.Stands before [c] rest)
    (hnone : s.pending = none) : Finds (startingWith memchr c) s s.line before (piece c rest) := by
  unfold startingWith
  split
  case h_11 | h_12 | h_13 | h_14 => exact finds_operator h rfl rfl rfl rfl
  case h_15 | h_16 | h_17 => exact finds_blank h hnone rfl (by decide)
  case h_18 => exact finds_newLine h hnone
  case h_19 => exact finds_slash hm h hnone
  case h_20 => exact finds_string h hnone
  case h_21 =>
    split
    · exact finds_number h ‹_›
    · split
      · exact finds_identifier h ‹_›
      · have hsingle : single? c = none := by
          unfold single?
          split
          case h_16 => rfl
          all_goals contradiction
        have hblank : ¬ isBlank c := by
          simp only [isBlank, Bool.or_eq_true, decide_eq_true_eq, not_or]
          exact ⟨⟨⟨‹_›, ‹_›⟩, ‹_›⟩, ‹_›⟩
        rw [piece_of_unexpected hblank ‹_› ‹_› ‹_› hsingle]
        exact finds_unexpected (by rw [h.splits, List.append_assoc]; rfl) h.start hnone
  all_goals exact finds_symbol h rfl rfl (by decide) rfl

/-- A round reads the first piece of what is left. -/
theorem finds_scanToken (hm : FindsFirst memchr) (h : s.Stands before [] (c :: rest))
    (hnone : s.pending = none) : Finds (scanToken memchr) s s.line before (piece c rest) := by
  rcases Nat.lt_or_ge c.toNat 128 with hc | hc
  · obtain ⟨hadvance, hbehind⟩ := h.advance_ascii hc
    refine Finds.bind hadvance ?_
    rw [(utf8EncodeChar_of_ascii hc).2]
    exact finds_startingWith hm hbehind hnone
  · obtain ⟨b, hb, hadvance⟩ := h.advance_eq
    have hwide := le_of_mem_utf8EncodeChar hc hb
    refine Finds.bind hadvance ?_
    rw [startingWith_of_wide hwide, piece_of_wide hc]
    exact finds_unexpected (h.splits.trans (by rw [List.append_nil])) h.start hnone

end Finds

/-! ### Rounds -/

section Rounds

variable {s : Scanner} {before text rest : List Char} {c : Char}
  {memchr : UInt8 → Array UInt8 → Option Nat}

/-- From the place where it stands the scanner reads the first piece of what is left. -/
theorem Stands.round (hm : FindsFirst memchr) (h : s.Stands before text (c :: rest)) :
    ∃ later, (do mark; scanToken memchr) s = .ok (result later.line (piece c rest).1) later
      ∧ later.Stands (before ++ text) (piece c rest).1.text (piece c rest).2
      ∧ later.line = s.line + (piece c rest).1.feeds
      ∧ later.pending = kind? (piece c rest).1 := by
  have hmarked : Stands { s with start := s.curr, pending := none } (before ++ text) []
      (c :: rest) := by
    refine ⟨?_, ?_, rfl⟩
    · rw [List.append_nil]
      exact h.splits
    · rw [byteLength_append, ← h.start]
      exact h.curr
  exact Finds.bind rfl (finds_scanToken hm hmarked rfl)

/-- The item that a piece gives which ends on this line. -/
def itemOf (line : Nat) : Piece → Option Item
  | .token kind lexeme => some (.ok ⟨kind, .ofList lexeme, line⟩)
  | .unexpected c => some (.error ⟨line, .unexpectedCharacter c⟩)
  | .openString _ => some (.error ⟨line, .unterminatedString⟩)
  | .blank _ | .comment _ => none

theorem Stands.item?_eq (hm : FindsFirst memchr) (h : s.Stands before text (c :: rest)) :
    ∃ later, item? memchr s = .ok (itemOf later.line (piece c rest).1) later
      ∧ later.Stands (before ++ text) (piece c rest).1.text (piece c rest).2
      ∧ later.line = s.line + (piece c rest).1.feeds := by
  obtain ⟨later, hround, hlater, hline, hpending⟩ := h.round hm
  obtain ⟨_, marked, hmark, hscan⟩ := ok_of_bind_eq_ok hround
  have hitem : ∀ {found : Option Item} {last : Scanner},
      itemOfLexeme (result later.line (piece c rest).1) later = .ok found last →
      item? memchr s = .ok found last :=
    fun hrest => (bind_of_ok hmark).trans ((bind_of_ok hscan).trans hrest)
  have htaken : Stands { later with pending := none } (before ++ text) (piece c rest).1.text
      (piece c rest).2 := ⟨hlater.splits, hlater.start, hlater.curr⟩
  have htake : takePending later = .ok (kind? (piece c rest).1) { later with pending := none } :=
    congrArg (EStateM.Result.ok · _) hpending
  rcases hpiece : (piece c rest).1 with ⟨kind, lexeme⟩ | d | comment | d | open_ <;>
    rw [hpiece] at hlater htaken htake hline hitem
  · exact ⟨_, hitem ((bind_of_ok htake).trans (bind_of_ok htaken.lexeme_eq)), htaken, hline⟩
  · exact ⟨_, hitem (bind_of_ok htake), htaken, hline⟩
  · exact ⟨_, hitem (bind_of_ok htake), htaken, hline⟩
  · exact ⟨_, hitem rfl, hlater, hline⟩
  · exact ⟨_, hitem rfl, hlater, hline⟩

/-- What is left to give: the items of the rest of the source, or nothing behind its end. -/
def HasLeft (s : Scanner) (items : List Item) : Prop :=
  (∃ before text rest, s.Stands before text rest ∧ items = sweep s.line rest)
    ∨ s.bytes.size < s.curr ∧ items = []

theorem sweep_cons (line : Nat) (c : Char) (rest : List Char) :
    sweep line (c :: rest)
      = (itemOf (line + (piece c rest).1.feeds) (piece c rest).1).toList
        ++ sweep (line + (piece c rest).1.feeds) (piece c rest).2 := by
  rw [sweep]
  rcases (piece c rest).1 with ⟨kind, lexeme⟩ | d | comment | d | open_ <;> rfl

theorem next_of_item {later : Scanner} {item : Item} (hs : s.curr < s.bytes.size)
    (h : item? memchr s = .ok (some item) later) : next memchr s = .ok (some item) later := by
  rw [next, if_pos (Nat.le_of_lt hs), if_neg (Nat.ne_of_lt hs)]
  split <;> rename_i hgiven <;> cases h.symm.trans hgiven
  rfl

theorem next_of_none {later : Scanner} (hs : s.curr < s.bytes.size)
    (h : item? memchr s = .ok none later) : next memchr s = next memchr later := by
  rw [next, if_pos (Nat.le_of_lt hs), if_neg (Nat.ne_of_lt hs)]
  split <;> rename_i hgiven <;> cases h.symm.trans hgiven
  rfl

/-- By induction on the pieces: a blank or a comment gives no item, and the next round begins where
    it ends. -/
theorem next_of_stands (hm : FindsFirst memchr) (rest : List Char) :
    ∀ {s : Scanner} {before text : List Char}, s.Stands before text rest →
      ∃ later, next memchr s = .ok (sweep s.line rest).head? later
        ∧ later.HasLeft (sweep s.line rest).tail := by
  fun_induction pieces rest
  case case1 =>
    intro s before text h
    have hsize : s.bytes.size = s.curr := h.size_eq
    refine ⟨{ s with curr := s.curr + 1 }, ?_, Or.inr ⟨?_, ?_⟩⟩
    · rw [next, if_pos (Nat.le_of_eq hsize.symm), if_pos hsize.symm, sweep]
      rfl
    · exact Nat.lt_succ_of_le (Nat.le_of_eq hsize)
    · rw [sweep]
      rfl
  case case2 c rest first ih =>
    intro s before text h
    obtain ⟨later, hitem, hlater, hline⟩ := h.item?_eq hm
    have hlt := h.lt_size
    rw [sweep_cons, ← hline]
    rcases hfound : itemOf later.line (piece c rest).1 with _ | item <;> rw [hfound] at hitem
    · rw [next_of_none hlt hitem]
      exact ih hlater
    · exact ⟨later, next_of_item hlt hitem, Or.inl ⟨_, _, _, hlater, rfl⟩⟩

theorem HasLeft.next_eq (hm : FindsFirst memchr) {items : List Item} (h : s.HasLeft items) :
    ∃ later, next memchr s = .ok items.head? later ∧ later.HasLeft items.tail := by
  rcases h with ⟨before, text, rest, hs, rfl⟩ | ⟨hend, rfl⟩
  · exact next_of_stands hm rest hs
  · refine ⟨s, ?_, Or.inr ⟨hend, rfl⟩⟩
    rw [next, if_neg (Nat.not_le.mpr hend)]
    rfl

theorem HasLeft.calls_eq (hm : FindsFirst memchr) {items : List Item} (h : s.HasLeft items)
    (n : Nat) : ∃ last, calls memchr n s = .ok ((List.range n).map (items[·]?)) last := by
  induction n generalizing s items with
  | zero => exact ⟨s, rfl⟩
  | succ n ih =>
    obtain ⟨later, hnext, hlater⟩ := h.next_eq hm
    obtain ⟨last, hcalls⟩ := ih hlater
    refine ⟨last, (bind_of_ok hnext).trans ((bind_of_ok hcalls).trans ?_)⟩
    rw [List.range_succ_eq_map, List.map_cons, List.map_map, List.head?_eq_getElem?]
    simp only [List.getElem?_tail]
    rfl

/-- Up to the end of the source the scanner reads one of these pieces in each round.  It recognises
    the kind of a token, it refuses what is none, and it can take the text of the piece. -/
inductive Rounds (memchr : UInt8 → Array UInt8 → Option Nat) : Scanner → List Piece → Prop
  | done {s : Scanner} (h : s.curr = s.bytes.size) : Rounds memchr s []
  | round {s later : Scanner} {p : Piece} {ps : List Piece} (hs : s.curr < s.bytes.size)
    (hscan : (do mark; scanToken memchr) s = .ok (result later.line p) later)
    (hkind : later.pending = kind? p) (htext : lexeme later = .ok (.ofList p.text) later)
    (hrest : Rounds memchr later ps) : Rounds memchr s (p :: ps)

theorem rounds_of_stands (hm : FindsFirst memchr) (rest : List Char) :
    ∀ {s : Scanner} {before text : List Char}, s.Stands before text rest →
      Rounds memchr s (pieces rest) := by
  fun_induction pieces rest
  case case1 =>
    intro s before text h
    exact .done h.size_eq.symm
  case case2 c rest first ih =>
    intro s before text h
    obtain ⟨later, hround, hlater, -, hkind⟩ := h.round hm
    exact .round h.lt_size hround hkind hlater.lexeme_eq (ih hlater)

theorem stands_ofSource (source : String) : (ofSource source).Stands [] [] source.toList :=
  ⟨rfl, rfl, rfl⟩

/-- A scanner gives the items of its source, one with each call, and nothing behind them. -/
theorem calls_over (hm : FindsFirst memchr) (source : String) (n : Nat) :
    ∃ last, calls memchr n (ofSource source) = .ok ((List.range n).map ((scan source)[·]?)) last := by
  have hleft : (ofSource source).HasLeft (scan source) :=
    Or.inl ⟨_, _, _, stands_ofSource source, (sweep_eq_items 1 source.toList).symm⟩
  exact hleft.calls_eq hm n

end Rounds

/-- A source is divided by the rules in one way only.  A scanner reads the pieces of this division
    round after round, without a panic.  What its calls give are the pieces that are to be reported,
    in order, and the end of the source behind them; from then on they give nothing. -/
theorem maximal_munch {memchr : UInt8 → Array UInt8 → Option Nat} (hm : FindsFirst memchr)
    (source : String) :
    ∃ ps : List Piece,
      (∀ qs, Munches qs source.toList ↔ qs = ps)
      ∧ Rounds memchr (ofSource source) ps
      ∧ (∀ n, ∃ last,
        calls memchr n (ofSource source) = .ok ((List.range n).map ((scan source)[·]?)) last)
      ∧ (scan source).map withoutLine = ps.filterMap Piece.report? ++ [.ok (.eof, "")]
      ∧ ∀ kind lexeme, Piece.token kind lexeme ∈ ps → kind.sameForm .eof = false
        ∧ ∀ word reserved, (word, reserved) ∈ TokenKind.reserved →
          (kind = reserved ↔ String.ofList lexeme = word) := by
  refine ⟨pieces source.toList, fun qs => munches_iff,
    rounds_of_stands hm _ (stands_ofSource source), calls_over hm source, withoutLine_items 1 _, ?_⟩
  intro kind lexeme hmem
  exact ⟨pieces_isProper _ _ hmem kind lexeme rfl,
    fun word reserved hword => (form_of_munches (munches_iff.mpr rfl) hmem).reserved_iff hword⟩

/-- A search that looks at one byte after another. -/
def firstPlace (b : UInt8) (bytes : Array UInt8) : Option Nat :=
  bytes.toList.findIdx? (· == b)

theorem findsFirst_firstPlace : FindsFirst firstPlace := by
  refine ⟨fun {b bytes place} h => ?_, fun {b bytes} h => ?_⟩
  · obtain ⟨hlt, hb, hfirst⟩ := List.findIdx?_eq_some_iff_getElem.mp h
    refine ⟨?_, fun i hi heq => ?_⟩
    · rw [← Array.getElem?_toList, List.getElem?_eq_getElem hlt, eq_of_beq hb]
    · rw [← Array.getElem?_toList, List.getElem?_eq_getElem (Nat.lt_trans hi hlt)] at heq
      exact hfirst i hi (beq_iff_eq.mpr (Option.some.inj heq))
  · intro hmem
    have hnone := List.findIdx?_eq_none_iff.mp h b (Array.mem_toList_iff.mpr hmem)
    rw [beq_self_eq_true] at hnone
    cases hnone

/-- A character of two bytes in a comment, as an unexpected one and in an open string. -/
theorem maximal_munch_mixed :
    ∃ last, calls firstPlace 8 (ofSource "// é\n/!==é\"é") = .ok
      [some (.ok ⟨.slash, "/", 2⟩), some (.ok ⟨.bangEqual, "!=", 2⟩), some (.ok ⟨.equal, "=", 2⟩),
        some (.error ⟨2, .unexpectedCharacter 'é'⟩), some (.error ⟨2, .unterminatedString⟩),
        some (.ok ⟨.eof, "", 2⟩), none, none] last := by
  obtain ⟨ps, -, -, hcalls, -⟩ := maximal_munch findsFirst_firstPlace "// é\n/!==é\"é"
  obtain ⟨last, hlast⟩ := hcalls 8
  have hscan : scan "// é\n/!==é\"é"
      = [.ok ⟨.slash, "/", 2⟩, .ok ⟨.bangEqual, "!=", 2⟩, .ok ⟨.equal, "=", 2⟩,
        .error ⟨2, .unexpectedCharacter 'é'⟩, .error ⟨2, .unterminatedString⟩,
        .ok ⟨.eof, "", 2⟩] := by
    decide +kernel
  rw [hscan] at hlast
  exact ⟨last, hlast⟩

end Scanner

end Treewalk
