import Treewalk.Proofs.Token.Munch

/-!
# Lines

**The line of a token is one more than the number of line feeds up to the end of its lexeme.**  A
scanner that counts lines as it reads has two places where it counts: between the pieces, where a
line feed is a piece of its own, and inside strings.  It passes over whole comments, words, numbers
and symbols without looking for line feeds.  That is right because there are none in them: the line
feed behind a comment is not part of it.
-/

namespace Treewalk

/-- The line of what ends where this text ends. -/
def lineAfter (text : List Char) : Nat :=
  1 + text.count '\n'

theorem lineAfter_append (text more : List Char) :
    lineAfter (text ++ more) = lineAfter text + more.count '\n' := by
  rw [lineAfter, List.count_append, ← Nat.add_assoc]
  rfl

/-- The line of an item. -/
def itemLine : Except LexicalError Token → Nat
  | .ok t => t.line
  | .error e => e.line

namespace Lexer

/-! ### Counting while reading -/

/-- The characters that a scanner reads one by one to find the end of a token: those between the
    quotes of a string. -/
def contents : TokenKind → List Char
  | .string contents => contents.toList
  | _ => []

/-- The line feeds that are counted when a piece is read. -/
def Piece.feeds : Piece → Nat
  | .token kind _ => (contents kind).count '\n'
  | .blank c => if c = '\n' then 1 else 0
  | .openString text => text.count '\n'
  | .comment _ | .unexpected _ => 0

/-- The items of a source that is read from left to right with a counter for its lines. -/
def sweep (line : Nat) : List Char → List (Except LexicalError Token)
  | [] => [.ok ⟨.eof, "", line⟩]
  | c :: rest =>
    let first := piece c rest
    let line := line + first.1.feeds
    match first.1 with
    | .token kind lexeme => .ok ⟨kind, .ofList lexeme, line⟩ :: sweep line first.2
    | .unexpected c => .error ⟨line, .unexpectedCharacter c⟩ :: sweep line first.2
    | .openString _ => .error ⟨line, .unterminatedString⟩ :: sweep line first.2
    | .blank _ | .comment _ => sweep line first.2
termination_by cs => cs.length
decreasing_by all_goals exact length_piece_lt c rest

theorem feed_not_mem_of_class {p : Char → Bool} (hp : p '\n' = false) {cs : List Char}
    (hcs : ∀ c ∈ cs, p c) : '\n' ∉ cs := by
  intro hmem
  have hfeed := hcs _ hmem
  rw [hp] at hfeed
  cases hfeed

theorem contents_of_wordKind {word : String} {kind : TokenKind} (h : WordKind word kind) :
    contents kind = [] := by
  have hreserved : ∀ entry ∈ TokenKind.reserved, contents entry.2 = [] := by decide
  rcases h with hmem | ⟨-, rfl⟩
  · exact hreserved _ hmem
  · rfl

/-- All line feeds in a token are between the quotes of a string. -/
theorem Form.count_contents {lexeme : List Char} {kind : TokenKind} (h : Form lexeme kind) :
    (contents kind).count '\n' = lexeme.count '\n' := by
  have hnone : ∀ {cs : List Char}, '\n' ∉ cs → ([] : List Char).count '\n' = cs.count '\n' :=
    fun hcs => (List.count_eq_zero.mpr hcs).symm
  have hdigit : isDigit '\n' = false := by decide
  cases h with
  | symbol hmem =>
    have hsymbols : ∀ entry ∈ symbols, contents entry.2 = [] ∧ '\n' ∉ entry.1.toList := by decide
    obtain ⟨hcontents, hfeed⟩ := hsymbols _ hmem
    rw [hcontents]
    exact hnone hfeed
  | string _ => simp [contents]
  | integer hdigits => exact hnone (feed_not_mem_of_class hdigit hdigits)
  | fraction hwhole hdigits =>
    refine hnone fun hmem => ?_
    rcases List.mem_append.mp hmem with hmem | hmem
    · exact feed_not_mem_of_class hdigit hwhole hmem
    · rcases List.mem_cons.mp hmem with heq | hmem
      · cases heq
      · exact feed_not_mem_of_class hdigit hdigits hmem
  | @word c rest kind hc hrest hkind =>
    rw [contents_of_wordKind hkind]
    refine hnone fun hmem => ?_
    rcases List.mem_cons.mp hmem with rfl | hmem
    · exact absurd hc (by decide)
    · exact feed_not_mem_of_class (by decide) hrest hmem

/-- The line feeds that are counted are all that there are. -/
theorem Piece.Fits.feeds_eq {p : Piece} {after : List Char} (h : p.Fits after) :
    p.feeds = p.text.count '\n' := by
  cases p with
  | token kind lexeme => exact h.1.count_contents
  | blank c =>
    rw [Piece.feeds, Piece.text, List.count_singleton]
    simp
  | comment text => exact (List.count_eq_zero.mpr h.2.1).symm
  | unexpected c =>
    refine (List.count_eq_zero.mpr fun hmem => ?_).symm
    cases List.mem_singleton.mp hmem
    exact h.1 (by decide)
  | openString text => rfl

theorem sweep_eq_items (line : Nat) (cs : List Char) : sweep line cs = items line (pieces cs) := by
  fun_induction pieces cs generalizing line with
  | case1 => rw [sweep, items]
  | case2 c rest first ih =>
    have hfeeds : (piece c rest).1.feeds = first.1.text.count '\n' := (fits_piece c rest).feeds_eq
    have hrest : ∀ line, sweep line (piece c rest).2 = items line (pieces (piece c rest).2) := ih
    rw [sweep, items.eq_def]
    simp only [hfeeds, first]
    cases (piece c rest).1 <;> simp only [hrest]

/-! ### Lines by what stands before -/

/-- The item for a piece that stands behind `text` in the source.  An open string is only found
    wanting at the end of the source. -/
def Piece.item? (source text : List Char) : Piece → Option (Except LexicalError Token)
  | .token kind lexeme => some (.ok ⟨kind, .ofList lexeme, lineAfter (text ++ lexeme)⟩)
  | .unexpected c => some (.error ⟨lineAfter text, .unexpectedCharacter c⟩)
  | .openString _ => some (.error ⟨lineAfter source, .unterminatedString⟩)
  | .blank _ | .comment _ => none

/-- The items for the pieces that stand behind `text` in the source, and the end of the source. -/
def itemsBehind (source text : List Char) : List Piece → List (Except LexicalError Token)
  | [] => [.ok ⟨.eof, "", lineAfter source⟩]
  | p :: ps => (p.item? source text).toList ++ itemsBehind source (text ++ p.text) ps

theorem items_eq_itemsBehind {source text after : List Char} {ps : List Piece}
    (h : Munches ps after) (hsource : source = text ++ after) :
    items (lineAfter text) ps = itemsBehind source text ps := by
  induction h generalizing text with
  | nil =>
    rw [items, itemsBehind, hsource, List.append_nil]
  | @cons p ps after hfits hrest ih =>
    have hbehind : items (lineAfter (text ++ p.text)) ps = itemsBehind source (text ++ p.text) ps :=
      ih (by rw [hsource, List.append_assoc])
    rw [itemsBehind, ← hbehind, items.eq_def]
    simp only [← lineAfter_append]
    rcases p with ⟨kind, lexeme⟩ | c | comment | c | open_
    · rfl
    · rfl
    · rfl
    · have hfeed : [c].count '\n' = 0 := hfits.feeds_eq.symm
      have hline : lineAfter (text ++ [c]) = lineAfter text := by
        rw [lineAfter_append, hfeed, Nat.add_zero]
      rw [Piece.text, hline]
      rfl
    · obtain ⟨-, rfl⟩ := hfits
      rw [Piece.item?, hsource, List.append_nil]
      rfl

/-- From item to item the lines do not decrease. -/
theorem pairwise_items (line : Nat) (ps : List Piece) :
    (∀ item ∈ items line ps, line ≤ itemLine item)
      ∧ (items line ps).Pairwise fun item later => itemLine item ≤ itemLine later := by
  induction ps generalizing line with
  | nil =>
    refine ⟨fun item hitem => ?_, List.pairwise_singleton _ _⟩
    cases List.mem_singleton.mp hitem
    exact Nat.le_refl _
  | cons p ps ih =>
    obtain ⟨hle, hpairwise⟩ := ih (line + p.text.count '\n')
    have hrest : ∀ item ∈ items (line + p.text.count '\n') ps, line ≤ itemLine item :=
      fun item hitem => Nat.le_trans (Nat.le_add_right _ _) (hle item hitem)
    have hreported : ∀ first : Except LexicalError Token,
        itemLine first = line + p.text.count '\n' →
        (∀ item ∈ first :: items (line + p.text.count '\n') ps, line ≤ itemLine item)
          ∧ (first :: items (line + p.text.count '\n') ps).Pairwise
            fun item later => itemLine item ≤ itemLine later := by
      intro first hfirst
      refine ⟨List.forall_mem_cons.mpr ⟨?_, hrest⟩, List.pairwise_cons.mpr ⟨?_, hpairwise⟩⟩
      · rw [hfirst]
        exact Nat.le_add_right _ _
      · rw [hfirst]
        exact hle
    rcases p with ⟨kind, lexeme⟩ | c | text | c | text
    · exact hreported _ rfl
    · exact ⟨hrest, hpairwise⟩
    · exact ⟨hrest, hpairwise⟩
    · exact hreported _ rfl
    · exact hreported _ rfl

end Lexer

open Lexer

/-! ### Whole sources -/

/-- A source is scanned as by a scanner that counts lines while it reads, and each item has the line
    that the source gives it: a token that of the end of its lexeme, an unexpected character its
    own, and an open string, like the end of the source, the last one.  So the lines of successive
    items never decrease. -/
theorem scan_lines_exact (source : String) :
    scan source = sweep 1 source.toList
      ∧ (∃ ps : List Piece, (∀ qs, Munches qs source.toList ↔ qs = ps)
        ∧ scan source = itemsBehind source.toList [] ps)
      ∧ (scan source).Pairwise fun item later => itemLine item ≤ itemLine later := by
  refine ⟨(sweep_eq_items 1 source.toList).symm, ⟨_, fun qs => munches_iff, ?_⟩, ?_⟩
  · have hbehind : items (lineAfter []) _ = itemsBehind source.toList [] _ :=
      items_eq_itemsBehind (munches_iff.mpr rfl) rfl
    exact hbehind
  · exact (pairwise_items 1 _).2

example : (scan "// \n\"\n\" @\n\"\n").map itemLine = [3, 3, 5, 5] := by
  cbv

end Treewalk
