import Treewalk.Proofs.Token.Lines
import Treewalk.Proofs.Token.Seam

/-!
# Places of items

**The place of an item is its index among all items of a source, and the source gives each place a
line.**  Items that carry their places instead of their lines are still the items of the source: the
lines are got back from the places.
-/

namespace Treewalk

open Lexer

variable (source : String)

/-- The line of the item at a place. -/
def lineAt (place : Nat) : Nat :=
  (scan source)[place]?.elim 0 itemLine

/-- The items of a source, each with its place for its line. -/
def placedScan : List (Except LexicalError Token) :=
  (scan source).mapIdx fun place item => moveItem (fun _ => place) item

/-- The tokens of a source, each with its place for its line. -/
def placedTokens : List Token :=
  (placedScan source).filterMap Except.toOption

/-- The lexical errors of a source, each with its place for its line. -/
def placedErrors : List LexicalError :=
  (placedScan source).filterMap fun item =>
    match item with
    | .ok _ => none
    | .error e => some e

variable {source}

theorem getElem?_placedScan (place : Nat) :
    (placedScan source)[place]? = ((scan source)[place]?).map (moveItem fun _ => place) :=
  List.getElem?_mapIdx

theorem itemLine_of_getElem?_placedScan {place : Nat} {item : Except LexicalError Token}
    (h : (placedScan source)[place]? = some item) : itemLine item = place := by
  rw [getElem?_placedScan, Option.map_eq_some_iff] at h
  obtain ⟨original, -, rfl⟩ := h
  rcases original with e | t <;> rfl

/-- The line of an item is got back from its place. -/
theorem moveItem_of_getElem? {place : Nat} {item : Except LexicalError Token}
    (h : (scan source)[place]? = some item) :
    moveItem (lineAt source) (moveItem (fun _ => place) item) = item := by
  have hline : lineAt source place = itemLine item := by
    rw [lineAt, h]
    rfl
  rcases item with e | t <;> simp only [moveItem, Token.move, hline, itemLine]

/-- A placed item stands at its place. -/
theorem getElem?_of_mem_placedScan {item : Except LexicalError Token} (h : item ∈ placedScan source) :
    (scan source)[itemLine item]? = some (moveItem (lineAt source) item) := by
  obtain ⟨place, hplace⟩ := List.getElem?_of_mem h
  rw [itemLine_of_getElem?_placedScan hplace]
  rw [getElem?_placedScan, Option.map_eq_some_iff] at hplace
  obtain ⟨original, horiginal, rfl⟩ := hplace
  rw [moveItem_of_getElem? horiginal]
  exact horiginal

theorem scan_eq_map_placedScan (source : String) :
    scan source = (placedScan source).map (moveItem (lineAt source)) := by
  refine List.ext_getElem? fun place => ?_
  rw [List.getElem?_map, getElem?_placedScan, Option.map_map]
  rcases hitem : (scan source)[place]? with _ | item
  · rfl
  · exact congrArg some (moveItem_of_getElem? hitem).symm

theorem tokens_eq_map_placedTokens (source : String) :
    tokens source = (placedTokens source).map (Token.move (lineAt source)) := by
  rw [tokens, scan_eq_map_placedScan, List.filterMap_map, placedTokens, List.map_filterMap]
  congr 1
  funext item
  rcases item with e | t <;> rfl

theorem lexicalErrors_eq_map_placedErrors (source : String) :
    lexicalErrors source
      = (placedErrors source).map fun e => ⟨lineAt source e.line, e.cause⟩ := by
  rw [lexicalErrors, scan_eq_map_placedScan, List.filterMap_map, placedErrors, List.map_filterMap]
  congr 1
  funext item
  rcases item with e | t <;> rfl

/-- The places go up from item to item. -/
theorem pairwise_placedScan (source : String) :
    (placedScan source).Pairwise fun item later => itemLine item < itemLine later := by
  rw [List.pairwise_iff_getElem]
  intro i j hi hj hij
  rw [itemLine_of_getElem?_placedScan (List.getElem?_eq_getElem hi),
    itemLine_of_getElem?_placedScan (List.getElem?_eq_getElem hj)]
  exact hij

/-- The lines do not go down from place to place. -/
theorem lineAt_mono {place later : Nat} (hle : place ≤ later) (hlater : later < (scan source).length) :
    lineAt source place ≤ lineAt source later := by
  have hplace : place < (scan source).length := Nat.lt_of_le_of_lt hle hlater
  rw [lineAt, lineAt, List.getElem?_eq_getElem hplace, List.getElem?_eq_getElem hlater]
  rcases Nat.lt_or_eq_of_le hle with hlt | rfl
  · exact List.pairwise_iff_getElem.mp (pairwise_items 1 _).2 _ _ hplace hlater hlt
  · exact Nat.le_refl _

/-! ### Placed tokens -/

theorem mem_placedScan_of_mem_placedTokens {t : Token} (h : t ∈ placedTokens source) :
    .ok t ∈ placedScan source := by
  obtain ⟨item, hitem, ht⟩ := List.mem_filterMap.mp h
  rcases item with e | t'
  · cases ht
  · cases ht
    exact hitem

theorem mem_placedScan_of_mem_placedErrors {e : LexicalError} (h : e ∈ placedErrors source) :
    .error e ∈ placedScan source := by
  obtain ⟨item, hitem, he⟩ := List.mem_filterMap.mp h
  rcases item with e' | t
  · cases he
    exact hitem
  · cases he

theorem pairwise_placedTokens (source : String) :
    (placedTokens source).Pairwise fun t later => t.line < later.line := by
  refine List.pairwise_filterMap.mpr ((pairwise_placedScan source).imp ?_)
  intro item later hlt t ht u hu
  rcases item with e | t' <;> cases ht
  rcases later with e | u' <;> cases hu
  exact hlt

theorem pairwise_placedErrors (source : String) :
    (placedErrors source).Pairwise fun e later => e.line < later.line := by
  refine List.pairwise_filterMap.mpr ((pairwise_placedScan source).imp ?_)
  intro item later hlt e he e' he'
  rcases item with e₁ | t <;> cases he
  rcases later with e₂ | u <;> cases he'
  exact hlt

/-- Only the last token ends the source. -/
theorem placedTokens_eq_concat (source : String) : ∃ inner stop,
    placedTokens source = inner ++ [stop] ∧ (∀ t ∈ inner, t.isEnd = false) ∧ stop.isEnd = true := by
  have htokens := (tokens_eq_map_placedTokens source).symm.trans (tokens_eq source)
  obtain ⟨inner, last, hplaced, hinner, hlast⟩ := List.map_eq_append_iff.mp htokens
  obtain ⟨stop, rfl, hstop⟩ := List.map_eq_singleton_iff.mp hlast
  refine ⟨inner, stop, hplaced, fun t ht => ?_, ?_⟩
  · have hown : t.move (lineAt source) ∈ ownTokens source := hinner ▸ List.mem_map_of_mem ht
    exact (isEnd_of_mem_ownTokens hown :)
  · exact congrArg Token.isEnd hstop

/-- A token of the kind of a reserved word has this word for its lexeme. -/
theorem lexeme_of_reserved {t : Token} (ht : t ∈ placedTokens source) {word : String}
    (hword : (word, t.kind) ∈ TokenKind.reserved) : t.lexeme = word := by
  have hmem : t.move (lineAt source) ∈ tokens source := by
    rw [tokens_eq_map_placedTokens]
    exact List.mem_map_of_mem ht
  rcases form_of_mem_tokens hmem with hend | ⟨lexeme, hform, hlexeme⟩
  · have hkind : t.kind = .eof := hend
    rw [hkind] at hword
    simp [TokenKind.reserved] at hword
  · exact hlexeme.trans ((hform.reserved_iff hword).mp rfl)

end Treewalk
