import Treewalk.Proofs.Syntax.Comparing
import Treewalk.Proofs.Syntax.Joining

/-!
# Printing an expression

**An expression that is a source of its own is read alike as the operand of `print`.**  In front of
it stand the keyword and a blank, which take no line.  Behind it comes a line feed, so that a comment
at its end is closed, and then the semicolon.  A semicolon can only end the expression, as the end
of the source did.
-/

namespace Treewalk

/-- The source that prints an expression. -/
def printing (source : String) : String :=
  "print " ++ source ++ "\n;"

namespace Lexer

/-- The keyword and the blank behind it are cut off from whatever follows. -/
theorem pieces_print (cs : List Char) :
    pieces ("print ".toList ++ cs) = .token .kwPrint "print".toList :: .blank ' ' :: pieces cs := by
  have hkind : TokenKind.ofWord (.ofList "print".toList) = .kwPrint := by decide +kernel
  have hchars : "print ".toList ++ cs = 'p' :: 'r' :: 'i' :: 'n' :: 't' :: ' ' :: cs := rfl
  have hword : piece 'p' ('r' :: 'i' :: 'n' :: 't' :: ' ' :: cs)
      = (.token .kwPrint "print".toList, ' ' :: cs) := by
    show (Piece.token (.ofWord (.ofList "print".toList)) _, _) = _
    rw [hkind]
    rfl
  rw [hchars, pieces, hword, pieces]
  rfl

end Lexer

open Lexer

theorem scan_print (text : String) :
    scan ("print " ++ text) = .ok ⟨.kwPrint, "print", 1⟩ :: scan text := by
  rw [scan, String.toList_append, pieces_print]
  rfl

theorem scan_printing {source : String} (h : lexicalErrors source = []) :
    scan (printing source)
      = .ok ⟨.kwPrint, "print", 1⟩ :: (ownItems source
        ++ [.ok ⟨.semicolon, ";", lineCount source + 1⟩, .ok ⟨.eof, "", lineCount source + 1⟩]) := by
  have hpiece : piece ';' [] = (.token .semicolon [';'], []) := rfl
  have hsemicolon : scan ";" = [.ok ⟨.semicolon, ";", 1⟩, .ok ⟨.eof, "", 1⟩] := by
    have hchars : ";".toList = [';'] := rfl
    rw [scan, hchars, pieces, hpiece, pieces]
    rfl
  have htext : printing source = "print " ++ (source ++ "\n" ++ ";") := by
    rw [printing, String.append_assoc, String.append_assoc]
    rfl
  rw [htext, scan_print, scan_seam h, hsemicolon, Nat.add_comm (lineCount source)]
  rfl

theorem lexicalErrors_printing {source : String} (h : lexicalErrors source = []) :
    lexicalErrors (printing source) = [] := by
  have hown := h
  unfold lexicalErrors at hown ⊢
  rw [scan_eq, List.filterMap_append] at hown
  rw [scan_printing h, List.filterMap_cons_none rfl, List.filterMap_append,
    (List.append_eq_nil_iff.mp hown).1]
  rfl

namespace Cursor

theorem start_printing {source : String} (h : lexicalErrors source = []) (first : Nat) :
    start (tokens (printing source)) first
      = ⟨⟨.kwPrint, "print", 1⟩ ::
          (ownTokens source ++ [⟨.semicolon, ";", lineCount source + 1⟩]),
        ⟨.eof, "", lineCount source + 1⟩, first, []⟩ := by
  have htokens : tokens (printing source)
      = (⟨.kwPrint, "print", 1⟩ ::
          (ownTokens source ++ [⟨.semicolon, ";", lineCount source + 1⟩]))
        ++ [⟨.eof, "", lineCount source + 1⟩] := by
    unfold tokens ownTokens
    rw [scan_printing h]
    simp [Except.toOption]
  rw [htokens]
  refine start_of_tokens (fun t ht => ?_) rfl first
  rcases List.mem_cons.mp ht with rfl | ht
  · rfl
  rcases List.mem_append.mp ht with ht | ht
  · exact isEnd_of_mem_ownTokens ht
  · cases List.mem_singleton.mp ht
    rfl

end Cursor

namespace Parser

/-- An expression that is the whole of a source is read up to its end. -/
theorem ok_of_wholeExpression {steps : Nat} {c later : Cursor} {value : Expr}
    (h : wholeExpression steps c = .ok value later) :
    expression steps c = .ok value later ∧ later.rest = [] := by
  obtain ⟨found, middle, hread, hrest⟩ := ok_of_bind_eq_ok h
  obtain ⟨atEnd, last, hend, hreturn⟩ := ok_of_bind_eq_ok hrest
  cases hend
  split at hreturn
  · rename_i hempty
    cases hreturn
    exact ⟨hread, List.isEmpty_iff.mp hempty⟩
  · cases hreturn

/-- Behind the keyword stands the rest of a `print` statement. -/
theorem declaration_of_print {steps : Nat} {c : Cursor} {t : Token} {rest : List Token}
    (hrest : c.rest = t :: rest) (hkind : t.kind = .kwPrint) :
    declaration (steps + 2) c = printStatement steps { c with rest } := by
  have hpasses : ∀ kind, TokenKind.sameForm .kwPrint kind = false → accept kind c = .ok none c :=
    fun kind hform => accept_of_not_sameForm hrest (by rw [hkind, hform]; decide)
  have hpeek : peek c = .ok t c := by
    unfold peek Cursor.next
    rw [hrest]
    rfl
  have hskip : skip c = .ok ⟨⟩ { c with rest } := by
    unfold skip
    rw [hrest]
    rfl
  rw [declaration, bind_of_ok (hpasses .kwClass rfl)]
  dsimp only
  rw [bind_of_ok (hpasses .kwFun rfl)]
  dsimp only
  rw [bind_of_ok (hpasses .kwVar rfl)]
  dsimp only
  rw [statement, bind_of_ok hpeek, hkind]
  exact bind_of_ok hskip

/-- An expression that is read up to the end of its source is read as far where a semicolon
    follows. -/
theorem printStatement_of_expression {steps steps' : Nat} {c later d : Cursor} {value : Expr}
    {line : Nat} (hle : steps ≤ steps') (h : expression steps c = .ok value later)
    (hend : later.rest = []) (hquiet : later.errors = c.errors)
    (hd : c.Inside ⟨fun line => line, 0, [⟨.semicolon, ";", line⟩]⟩ d) :
    ∃ e, printStatement steps' d = .ok (.print value) e ∧ e.rest = [] ∧ e.nextId = later.nextId
      ∧ e.errors = later.errors := by
  let ι : Embedding := ⟨fun line => line, 0, [⟨.semicolon, ";", line⟩]⟩
  have hends : ι.Ends := by
    intro t ht
    cases ht
    rfl
  have hmirrors := mirrors_expression (ι := ι) steps steps' hle c
  unfold Gives at hmirrors
  rw [h] at hmirrors
  obtain ⟨e, hread, he⟩ := hmirrors.2 d hd hquiet (Or.inr hends)
  have hrest : e.rest = [⟨.semicolon, ";", line⟩] := by
    rw [he.rest, hend]
    rfl
  have hexpect : expect .semicolon .printEnd e
      = .ok ⟨.semicolon, ";", line⟩ { e with rest := [] } := by
    unfold expect
    rw [bind_of_ok (accept_of_sameForm hrest rfl)]
    rfl
  refine ⟨{ e with rest := [] }, ?_, rfl, he.nextId, he.errors⟩
  rw [printStatement, bind_of_ok hread, bind_of_ok hexpect]
  have hsame : value.move ι.shift = value := value.move_same
  rw [hsame]
  rfl

end Parser

namespace Cursor

theorem ok_of_expression {c later : Cursor} {value : Expr} (hc : c.errors = [])
    (h : c.expression = (some value, [], later)) :
    Parser.wholeExpression c.steps c = .ok value later ∧ later.errors = [] := by
  rcases c with ⟨rest, stop, nextId, errors⟩
  cases hc
  rcases hrun : Parser.wholeExpression (Cursor.steps ⟨rest, stop, nextId, []⟩)
    ⟨rest, stop, nextId, []⟩ with ⟨found, ⟨rest', stop', nextId', errors'⟩⟩ | ⟨e, after⟩
  · simp only [Cursor.expression, Cursor.run, hrun, Prod.mk.injEq, Option.some.injEq] at h
    obtain ⟨rfl, rfl, rfl⟩ := h
    exact ⟨rfl, rfl⟩
  · simp [Cursor.expression, Cursor.run, hrun] at h

/-- A source that is an expression without errors is also the operand of a `print` statement. -/
theorem program_printing {source : String} {first : Nat} {value : Expr} {later : Cursor}
    (hlexical : lexicalErrors source = [])
    (h : (start (tokens source) first).expression = (some value, [], later)) :
    ∃ e, (start (tokens (printing source)) first).program = ([.print value], [], e)
      ∧ e.nextId = later.nextId := by
  rw [start_printing hlexical]
  rw [start_eq] at h
  obtain ⟨hwhole, hquiet⟩ := ok_of_expression rfl h
  obtain ⟨hread, hend⟩ := Parser.ok_of_wholeExpression hwhole
  let c : Cursor := ⟨ownTokens source, ⟨.eof, "", lineCount source⟩, first, []⟩
  let semicolon : Token := ⟨.semicolon, ";", lineCount source + 1⟩
  let stop : Token := ⟨.eof, "", lineCount source + 1⟩
  let operand : Cursor := ⟨ownTokens source ++ [semicolon], stop, first, []⟩
  let d : Cursor := ⟨⟨.kwPrint, "print", 1⟩ :: operand.rest, stop, first, []⟩
  have hinside : c.Inside ⟨fun line => line, 0, [semicolon]⟩ operand := by
    refine ⟨?_, rfl, rfl, rfl⟩
    show operand.rest = (ownTokens source).map id ++ [semicolon]
    rw [List.map_id]
  -- One token more in front, and one behind, leave enough steps for the operand.
  obtain ⟨k, hk⟩ : ∃ k, d.steps = k + 3 := ⟨d.steps - 3, by simp only [Cursor.steps]; omega⟩
  have hle : c.steps ≤ k := by
    simp only [Cursor.steps, c, d, operand, List.length_cons, List.length_append] at hk ⊢
    omega
  obtain ⟨e, hprint, hrest, hnext, herrors⟩ :=
    Parser.printStatement_of_expression hle hread hend hquiet hinside
  have hdeclaration : Parser.declaration (k + 2) d = .ok (.print value) e :=
    (Parser.declaration_of_print rfl rfl).trans hprint
  refine ⟨e, program_of_ok rfl ?_ (herrors.trans hquiet), hnext⟩
  rw [hk, Parser.declarations_of_cons rfl, bind_of_ok (Parser.recovering_of_ok hdeclaration),
    bind_of_ok (Parser.declarations_of_nil hrest)]
  rfl

end Cursor

end Treewalk
