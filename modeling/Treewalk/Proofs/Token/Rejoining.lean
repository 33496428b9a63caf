import Treewalk.Proofs.Token.Munch

/-!
# Scanning lexemes again

**The lexemes of a source, written with one blank between each two, are the same tokens again.**
Where a token ends is not written down anywhere: it ends where no longer token fits.  A blank ends
every token but a string, and a string has ended already at its second quote.  So a blank never
hides in a longer token that starts at an earlier lexeme, and a slash in front of it never starts a
comment.
-/

namespace Treewalk

namespace Lexer

/-! ### A blank behind a lexeme -/

/-- A lexeme that does not start with a quote holds no blank. -/
theorem Form.blank_not_mem {lexeme : List Char} {kind : TokenKind} {blank : Char}
    (h : Form lexeme kind) (hblank : blank ∈ [' ', '\t', '\r', '\n'])
    (hquote : lexeme.head? ≠ some '"') : blank ∉ lexeme := by
  obtain ⟨hdigit, hletter⟩ : isDigit blank = false ∧ isLetter blank = false := by
    simp only [List.mem_cons, List.not_mem_nil, or_false] at hblank
    rcases hblank with rfl | rfl | rfl | rfl <;> exact ⟨rfl, rfl⟩
  have hword : isWordChar blank = false := by rw [isWordChar, hletter, hdigit]; rfl
  have hclass : ∀ {p : Char → Bool} {cs : List Char}, p blank = false → (∀ c ∈ cs, p c) →
      blank ∉ cs := fun hp hcs hmem => by simpa [hp] using hcs _ hmem
  cases h with
  | symbol hmem =>
    have hsymbols : ∀ entry ∈ symbols, entry.1.toList.any isBlank = false := by decide
    intro hinside
    have hnone := List.any_eq_false.mp (hsymbols _ hmem) blank hinside
    exact hnone (isBlank_iff.mpr hblank)
  | string _ => exact absurd rfl hquote
  | integer hdigits => exact hclass hdigit hdigits
  | fraction hwhole hdigits =>
    intro hmem
    rcases List.mem_append.mp hmem with hmem | hmem
    · exact hclass hdigit hwhole hmem
    · rcases List.mem_cons.mp hmem with rfl | hmem
      · simp at hblank
      · exact hclass hdigit hdigits hmem
  | word hc hrest _ =>
    intro hmem
    rcases List.mem_cons.mp hmem with rfl | hmem
    · exact absurd hc (by simp [hletter])
    · exact hclass hword hrest hmem

theorem Form.eq_string {lexeme : List Char} {kind : TokenKind} (h : Form lexeme kind)
    (hquote : lexeme.head? = some '"') :
    ∃ contents, '"' ∉ contents ∧ lexeme = '"' :: (contents ++ ['"']) := by
  cases h with
  | symbol hmem =>
    have hsymbols : ∀ entry ∈ symbols, entry.1.toList.head? ≠ some '"' := by decide
    exact absurd hquote (hsymbols _ hmem)
  | string hinside => exact ⟨_, hinside, rfl⟩
  | integer hdigits =>
    cases hquote
    exact absurd (hdigits _ List.mem_cons_self) (by decide)
  | fraction hwhole _ =>
    cases hquote
    exact absurd (hwhole _ List.mem_cons_self) (by decide)
  | word hc _ _ =>
    cases hquote
    exact absurd hc (by decide)

/-- No token goes on over a blank behind another token. -/
theorem Form.not_over_blank {lexeme more : List Char} {kind other : TokenKind}
    (h : Form lexeme kind) : ¬ Form (lexeme ++ ' ' :: more) other := by
  intro hlonger
  obtain ⟨c, rest, rfl⟩ := List.exists_cons_of_ne_nil h.ne_nil
  by_cases hquote : c = '"'
  · subst hquote
    obtain ⟨contents, hinside, hlexeme⟩ := h.eq_string rfl
    obtain ⟨contents', hinside', hall⟩ := hlonger.eq_string rfl
    rw [hlexeme] at hall
    have htext : contents ++ '"' :: ' ' :: more = contents' ++ '"' :: [] := by
      simpa using hall
    have hclass : ∀ {cs : List Char}, '"' ∉ cs → ∀ d ∈ cs, (d != '"') = true :=
      fun hcs d hd => by simpa using fun heq : d = '"' => hcs (heq ▸ hd)
    -- both strings end at their first quote behind the opening one
    have hdrop := congrArg (List.dropWhile (· != '"')) htext
    rw [dropWhile_until (hclass hinside) (by simp), dropWhile_until (hclass hinside') (by simp)]
      at hdrop
    cases hdrop
  · exact hlonger.blank_not_mem List.mem_cons_self (by simpa using hquote) (by simp)

/-- A lexeme is cut off as it is if a blank or nothing comes behind it. -/
theorem Form.fits_apart {lexeme after : List Char} {kind : TokenKind} (h : Form lexeme kind)
    (hafter : ∀ c ∈ after.head?, c = ' ') : (Piece.token kind lexeme).Fits after := by
  refine ⟨h, fun hcomment => ?_, fun longer other hlonger hstart => ?_⟩
  · obtain ⟨c, rest, rfl, hpiece⟩ := piece_of_form h
    rcases rest with _ | ⟨d, rest⟩
    · rcases after with _ | ⟨d, after⟩
      · exact absurd hcomment.length_le (by simp)
      · cases hafter d rfl
        simp [List.cons_prefix_cons] at hcomment
    · have hstart : IsComment (c :: d :: rest) := by
        simp only [List.cons_append, List.cons_prefix_cons] at hcomment
        obtain ⟨rfl, rfl, -⟩ := hcomment
        exact ⟨rest, rfl⟩
      obtain ⟨more, -, -, hfound⟩ := piece_of_isComment hstart
      rw [hpiece] at hfound
      cases hfound
  · by_contra hlength
    have hprefix : lexeme <+: longer :=
      List.prefix_of_prefix_length_le (List.prefix_append lexeme after) hstart (by omega)
    obtain ⟨_ | ⟨d, more⟩, rfl⟩ := hprefix
    · simp at hlength
    · obtain ⟨tail, htail⟩ := hstart
      rw [List.append_assoc, List.append_cancel_left_eq] at htail
      cases hafter d (by rw [← htail]; rfl)
      exact h.not_over_blank hlonger

/-! ### Lexemes in a row -/

/-- The kind and the lexeme of a piece that is a token. -/
def Piece.token? : Piece → Option (TokenKind × List Char)
  | .token kind lexeme => some (kind, lexeme)
  | _ => none

/-- The pieces of lexemes with one blank between each two of them. -/
def apart (ts : List (TokenKind × List Char)) : List Piece :=
  (ts.map fun t => .token t.1 t.2).intersperse (.blank ' ')

theorem form_of_mem_token? {cs : List Char} {t : TokenKind × List Char}
    (h : t ∈ (pieces cs).filterMap Piece.token?) : Form t.2 t.1 := by
  obtain ⟨p, hp, ht⟩ := List.mem_filterMap.mp h
  cases p with
  | token kind lexeme =>
    cases ht
    exact form_of_munches (munches_iff.mpr rfl) hp
  | blank c => cases ht
  | comment text => cases ht
  | unexpected c => cases ht
  | openString text => cases ht

theorem munches_apart {ts : List (TokenKind × List Char)} (h : ∀ t ∈ ts, Form t.2 t.1) :
    Munches (apart ts) ([' '].intercalate (ts.map Prod.snd)) := by
  induction ts with
  | nil => exact .nil
  | cons t ts ih =>
    obtain ⟨hform, hts⟩ := List.forall_mem_cons.mp h
    rcases ts with _ | ⟨u, ts⟩
    · exact .cons (hform.fits_apart (by simp)) .nil
    · have hblank : ∀ after, (Piece.blank ' ').Fits after := fun _ => List.mem_cons_self
      have hlexeme : (Piece.token t.1 t.2).Fits (' ' :: [' '].intercalate ((u :: ts).map Prod.snd)) :=
        hform.fits_apart (by simp)
      exact .cons hlexeme (.cons (hblank _) (ih hts))

theorem filterMap_report?_apart (ts : List (TokenKind × List Char)) :
    (apart ts).filterMap Piece.report? = ts.map fun t => .ok (t.1, .ofList t.2) := by
  induction ts with
  | nil => rfl
  | cons t ts ih =>
    rcases ts with _ | ⟨u, ts⟩
    · rfl
    · have hcons : apart (t :: u :: ts) = .token t.1 t.2 :: .blank ' ' :: apart (u :: ts) := rfl
      rw [hcons, List.filterMap_cons, List.filterMap_cons, ih]
      rfl

theorem filterMap_toOption_report? (ps : List Piece) :
    (ps.filterMap Piece.report?).filterMap Except.toOption
      = (ps.filterMap Piece.token?).map fun t => (t.1, .ofList t.2) := by
  rw [List.filterMap_filterMap, List.map_filterMap]
  congr 1
  funext p
  cases p <;> rfl

end Lexer

open Lexer

/-! ### Whole sources -/

/-- A token without its line. -/
def Token.content (t : Token) : TokenKind × String :=
  (t.kind, t.lexeme)

theorem map_content_eq (source : String) :
    (tokens source).map Token.content
      = ((scan source).map withoutLine).filterMap Except.toOption := by
  unfold tokens
  rw [List.map_filterMap, List.filterMap_map]
  congr 1
  funext item
  cases item <;> rfl

/-- The pieces of a source that are tokens, and the end of the source. -/
theorem map_content_tokens (source : String) :
    (tokens source).map Token.content
      = ((pieces source.toList).filterMap Piece.token?).map (fun t => (t.1, String.ofList t.2))
        ++ [(.eof, "")] := by
  rw [map_content_eq, scan, withoutLine_items, List.filterMap_append, filterMap_toOption_report?]
  rfl

theorem lexicalErrors_eq_nil {source : String} {contents : List (TokenKind × String)}
    (h : (scan source).map withoutLine = contents.map .ok) : lexicalErrors source = [] := by
  refine List.filterMap_eq_nil_iff.mpr fun item hitem => ?_
  have hmem : withoutLine item ∈ contents.map .ok := h ▸ List.mem_map_of_mem hitem
  obtain ⟨content, -, hcontent⟩ := List.mem_map.mp hmem
  cases item with
  | ok t => rfl
  | error e => cases hcontent

/-- The lexemes of the tokens of a source, without the one that ends it. -/
def lexemes (source : String) : List String :=
  ((tokens source).filter fun t => !t.isEnd).map Token.lexeme

/-- The lexemes of a source with one blank between each two of them. -/
def rejoined (source : String) : String :=
  " ".intercalate (lexemes source)

theorem lexemes_eq (source : String) :
    lexemes source = ((pieces source.toList).filterMap Piece.token?).map fun t => .ofList t.2 := by
  have hown : (tokens source).filter (fun t => !t.isEnd) = ownTokens source := by
    rw [tokens_eq, List.filter_append,
      List.filter_eq_self.mpr fun t ht => by simp [isEnd_of_mem_ownTokens ht]]
    exact List.append_nil _
  have hcontents := map_content_tokens source
  rw [tokens_eq, List.map_append] at hcontents
  have hlexemes := congrArg (List.map Prod.snd) (List.append_cancel_right hcontents)
  rw [List.map_map, List.map_map] at hlexemes
  rw [lexemes, hown]
  exact hlexemes

/-- The text is cut into the tokens that it was joined from, with blanks between them. -/
theorem pieces_rejoined (source : String) :
    pieces (rejoined source).toList = apart ((pieces source.toList).filterMap Piece.token?) := by
  have htext : (rejoined source).toList
      = [' '].intercalate (((pieces source.toList).filterMap Piece.token?).map Prod.snd) := by
    rw [rejoined, String.toList_intercalate, lexemes_eq, List.map_map]
    congr 2
    funext t
    exact String.toList_ofList
  rw [htext]
  exact (munches_iff.mp (munches_apart fun t => form_of_mem_token?)).symm

/-- The lexemes of a source, with one blank between each two of them, are scanned without an error,
    into tokens of the same kinds with the same constants and the same lexemes. -/
theorem scan_rejoined (source : String) :
    lexicalErrors (rejoined source) = []
      ∧ (tokens (rejoined source)).map Token.content = (tokens source).map Token.content := by
  have hitems : (scan (rejoined source)).map withoutLine
      = ((tokens source).map Token.content).map .ok := by
    rw [scan, withoutLine_items, pieces_rejoined, filterMap_report?_apart, map_content_tokens,
      List.map_append, List.map_map]
    rfl
  constructor
  · exact lexicalErrors_eq_nil hitems
  · rw [map_content_eq, hitems, List.filterMap_map]
    exact List.filterMap_some

example : lexemes "a/ /b// c\n.x@!= =\"" = ["a", "/", "/", "b", ".", "x", "!=", "="] := by
  cbv

end Treewalk
