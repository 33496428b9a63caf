import Treewalk.Proofs.Syntax.Numbering
import Treewalk.Token.Lexer

/-!
# Words of a source

**A name token is never a reserved word, and the last token of a source is never a name.**  Names
and reserved words are cut off by the same rule; only then does the whole word decide the kind.
-/

namespace Treewalk

namespace Lexer

/-- A piece that is a name has the kind that its word decides. -/
def Piece.IsRegular (p : Piece) : Prop :=
  ∀ kind lexeme, p = .token kind lexeme → kind = .identifier → IsUnreserved (.ofList lexeme)

theorem single?_ne_identifier (c : Char) : single? c ≠ some .identifier := by
  unfold single?
  split <;> simp

theorem withEqual?_ne_identifier (c : Char) : withEqual? c ≠ some .identifier := by
  unfold withEqual?
  split <;> simp

theorem symbol_isRegular (c : Char) (rest : List Char) : (symbol c rest).1.IsRegular := by
  unfold symbol
  intro kind lexeme h hkind
  subst hkind
  split at h
  · rename_i kind _ hequal
    cases h
    exact absurd hequal (withEqual?_ne_identifier c)
  · split at h
    · rename_i kind hsingle
      cases h
      exact absurd hsingle (single?_ne_identifier c)
    · cases h

theorem quoted_isRegular (rest : List Char) : (quoted rest).1.IsRegular := by
  unfold quoted
  intro kind lexeme h hkind
  subst hkind
  split at h <;> cases h

theorem numeral_isRegular (c : Char) (rest : List Char) : (numeral c rest).1.IsRegular := by
  unfold numeral
  intro kind lexeme h hkind
  subst hkind
  dsimp only at h
  split at h
  · split at h <;> cases h
  · cases h

theorem word_isRegular (c : Char) (rest : List Char) : (word c rest).1.IsRegular := by
  intro kind lexeme h hkind
  cases h
  exact hkind

theorem slash_isRegular (rest : List Char) : (slash rest).1.IsRegular := by
  unfold slash
  split
  · intro kind lexeme h _
    cases h
  · exact symbol_isRegular '/' rest

theorem piece_isRegular (c : Char) (rest : List Char) : (piece c rest).1.IsRegular := by
  unfold piece
  split
  · intro kind lexeme h _
    cases h
  · split
    · exact slash_isRegular rest
    · split
      · exact quoted_isRegular rest
      · split
        · exact numeral_isRegular c rest
        · split
          · exact word_isRegular c rest
          · exact symbol_isRegular c rest

theorem pieces_isRegular (cs : List Char) : ∀ p ∈ pieces cs, p.IsRegular := by
  fun_induction pieces cs with
  | case1 =>
    intro p hp
    cases hp
  | case2 c rest first ih =>
    intro p hp
    rcases List.mem_cons.mp hp with rfl | hp
    · exact piece_isRegular c rest
    · exact ih p hp

theorem unreserved_of_mem_items {line : Nat} {ps : List Piece} (h : ∀ p ∈ ps, p.IsRegular)
    {t : Token} (ht : .ok t ∈ items line ps) (hkind : t.kind = .identifier) :
    IsUnreserved t.lexeme := by
  induction ps generalizing line with
  | nil =>
    rw [items, List.mem_singleton] at ht
    cases ht
    cases hkind
  | cons p ps ih =>
    have hps : ∀ p ∈ ps, p.IsRegular := fun q hq => h q (List.mem_cons_of_mem _ hq)
    rcases p with ⟨kind, lexeme⟩ | c | text | c | text <;> simp only [items] at ht
    · rcases List.mem_cons.mp ht with heq | ht
      · cases heq
        exact h _ List.mem_cons_self kind lexeme rfl hkind
      · exact ih hps ht
    · exact ih hps ht
    · exact ih hps ht
    · rcases List.mem_cons.mp ht with heq | ht
      · cases heq
      · exact ih hps ht
    · rcases List.mem_cons.mp ht with heq | ht
      · cases heq
      · exact ih hps ht

end Lexer

/-- The names among the tokens of a source are no reserved words. -/
theorem unreserved_of_mem_tokens {source : String} {t : Token} (h : t ∈ tokens source)
    (hkind : t.kind = .identifier) : IsUnreserved t.lexeme := by
  obtain ⟨item, hitem, ht⟩ := List.mem_filterMap.mp h
  rcases item with e | t'
  · cases ht
  · cases ht
    exact Lexer.unreserved_of_mem_items (Lexer.pieces_isRegular _) hitem hkind

theorem Cursor.start_lexed (source : String) (firstId : Nat) :
    (Cursor.start (tokens source) firstId).Lexed where
  rest t ht hkind := unreserved_of_mem_tokens ((List.takeWhile_prefix _).subset ht) hkind
  stop := by
    show ((tokens source).find? Token.isEnd |>.getD ⟨.eof, "", 1⟩).kind ≠ .identifier
    rcases hfind : (tokens source).find? Token.isEnd with _ | t
    · simp
    · have hend := List.find?_some hfind
      intro hkind
      rw [Option.getD_some] at hkind
      rw [Token.isEnd, hkind] at hend
      cases hend

end Treewalk
