import Mathlib.Data.List.Permutation
import Treewalk.Proofs.Binding.Joining
import Treewalk.Proofs.Session.Acceptance
import Treewalk.Proofs.Syntax.Comparing
import Treewalk.Proofs.Syntax.Ordering
import Treewalk.Proofs.Syntax.Progress
import Treewalk.Proofs.Token.Placing

/-!
# The order of static errors

**The static errors of a rejected source are listed by lines, and on one line in the order in which
they were found, pass after pass.**  A pass finds them in the order of the source, except for what
comes late.

The places of errors are not in the reports.  They are seen in a second reading, of the same tokens
with their places for lines.  It finds the same errors, since the parser and the binder never look at
a line.
-/

namespace Treewalk

/-! ### Stable sorting -/

section Stability

variable {α : Type} (key : α → Nat)

/-- Does `a` go in front of `b` by its key? -/
def byKey (a b : α) : Bool :=
  decide (key a ≤ key b)

theorem byKey_trans (a b c : α) (hab : byKey key a b = true) (hbc : byKey key b c = true) :
    byKey key a c = true :=
  decide_eq_true (Nat.le_trans (of_decide_eq_true hab) (of_decide_eq_true hbc))

theorem byKey_total (a b : α) : (byKey key a b || byKey key b a) = true := by
  rcases Nat.le_total (key a) (key b) with hle | hle
  · rw [byKey, decide_eq_true hle, Bool.true_or]
  · rw [byKey, byKey, decide_eq_true hle, Bool.or_true]

/-- The items of one key stay as they are. -/
theorem filter_mergeSort_byKey (n : Nat) (items : List α) :
    (items.mergeSort (byKey key)).filter (fun a => key a == n)
      = items.filter fun a => key a == n := by
  have hsame : (items.filter fun a => key a == n).Pairwise fun a b => byKey key a b = true :=
    List.pairwise_filter.mpr (List.pairwise_of_forall fun a b ha hb =>
      decide_eq_true (Nat.le_of_eq ((beq_iff_eq.mp ha).trans (beq_iff_eq.mp hb).symm)))
  have hsub := (List.sublist_mergeSort (byKey_trans key) (byKey_total key) hsame
    List.filter_sublist).filter fun a => key a == n
  rw [List.filter_filter] at hsub
  simp only [Bool.and_self] at hsub
  exact (hsub.eq_of_length ((List.mergeSort_perm items _).filter _).length_eq.symm).symm

/-- Sorted items go by their keys, and among those of one key all is as it was. -/
theorem pairwise_mergeSort_byKey {P : α → α → Prop} {items : List α} (h : items.Pairwise P) :
    (items.mergeSort (byKey key)).Pairwise fun a b => key a ≤ key b ∧ (key a = key b → P a b) := by
  have hsorted := List.pairwise_mergeSort (byKey_trans key) (byKey_total key) items
  rw [List.pairwise_iff_forall_sublist] at hsorted ⊢
  intro a b hab
  refine ⟨of_decide_eq_true (hsorted hab), fun hkey => ?_⟩
  -- Two items of one key are still there when only this key is looked at.
  have hpair := hab.filter fun x => key x == key b
  rw [filter_mergeSort_byKey, List.filter_cons_of_pos (by simp [hkey]),
    List.filter_cons_of_pos (by simp), List.filter_nil] at hpair
  exact List.pairwise_iff_forall_sublist.mp h (hpair.trans List.filter_sublist)

end Stability

/-! ### A reading with places -/

/-- A parser in front of the tokens of a source, each with its place for its line. -/
def placedStart (source : String) : Cursor :=
  Cursor.start (placedTokens source) 0

section Places

variable (source : String)

theorem placedStart_eq : ∃ inner stop, placedTokens source = inner ++ [stop]
    ∧ (∀ t ∈ inner, t.isEnd = false) ∧ stop.isEnd = true
    ∧ placedStart source = ⟨inner, stop, 0, []⟩ := by
  obtain ⟨inner, stop, htokens, hinner, hstop⟩ := placedTokens_eq_concat source
  refine ⟨inner, stop, htokens, hinner, hstop, ?_⟩
  rw [placedStart, htokens, Cursor.start_concat 0 hinner hstop]

theorem left_placedStart : (placedStart source).left = placedTokens source := by
  obtain ⟨inner, stop, htokens, -, -, hstart⟩ := placedStart_eq source
  rw [hstart, htokens]
  rfl

theorem placedStart_rising : (placedStart source).Rising where
  lines := by
    rw [left_placedStart]
    exact pairwise_placedTokens source
  stop := by
    obtain ⟨inner, stop, -, -, hstop, hstart⟩ := placedStart_eq source
    rw [hstart]
    exact hstop
  spelled t ht word hword := by
    rw [left_placedStart] at ht
    exact lexeme_of_reserved ht hword

/-- The source is read as with places, on the lines of these places. -/
theorem placedStart_relocated (first : Nat) :
    (placedStart source).Relocated ⟨lineAt source, 0, first⟩
      (Cursor.start (tokens source) first) where
  le := Nat.zero_le _
  eq := by
    obtain ⟨inner, stop, htokens, hinner, hstop, hstart⟩ := placedStart_eq source
    have hinner' : ∀ t ∈ inner.map (Token.move (lineAt source)), t.isEnd = false :=
      List.forall_mem_map.mpr hinner
    have hstop' : (stop.move (lineAt source)).isEnd = true := hstop
    rw [tokens_eq_map_placedTokens, htokens, List.map_append, List.map_singleton,
      Cursor.start_concat first hinner' hstop', hstart, Nat.zero_add]
    rfl

theorem placedStart_lexed : (placedStart source).Lexed where
  rest t ht hkind := by
    have hplaced : t ∈ placedTokens source := by
      rw [← left_placedStart]
      exact List.mem_append_left _ ht
    have hmem : t.move (lineAt source) ∈ tokens source := by
      rw [tokens_eq_map_placedTokens]
      exact List.mem_map_of_mem hplaced
    have hname : IsUnreserved (t.move (lineAt source)).lexeme := unreserved_of_mem_tokens hmem hkind
    exact hname
  stop hkind := by
    have hstop := (placedStart_rising source).stop
    rw [Token.isEnd, hkind] at hstop
    cases hstop

/-- What is read with places is in order, and well-formed. -/
theorem placedStart_in_order {program : Program} {errors : List SyntaxError} {cursor : Cursor}
    (hread : (placedStart source).program = (program, errors, cursor)) :
    (placedStart source).ReadInOrder program errors ∧ WellFormedStatements program := by
  have hwellFormed := (Cursor.program_numbered (placedStart_lexed source)).2.2
  rw [hread] at hwellFormed
  exact ⟨Cursor.program_in_order (placedStart_rising source) hread, hwellFormed⟩

end Places

/-! ### Findings -/

/-- The passes that find static errors. -/
inductive Pass where
  | scanning
  | parsing
  | binding
deriving DecidableEq

/-- A static error.  Its line is the place of what is wrong. -/
inductive Finding where
  | lexical (e : LexicalError)
  | syntactic (e : SyntaxError)
  | binding (e : BindingError)
deriving DecidableEq

namespace Finding

/-- The pass that finds it. -/
def pass : Finding → Pass
  | .lexical _ => .scanning
  | .syntactic _ => .parsing
  | .binding _ => .binding

/-- Its place among the items of the source. -/
def place : Finding → Nat
  | .lexical e => e.line
  | .syntactic e => e.token.line
  | .binding e => e.site.line

/-- How it is reported. -/
def report (source : String) : Finding → Diagnostic
  | .lexical e => LexicalError.report ⟨lineAt source e.line, e.cause⟩
  | .syntactic e => (e.move (lineAt source)).report
  | .binding e => (e.move (.ofLines (lineAt source))).report

/-- What is wrong stands at the place in the source. -/
def Stands (source : String) : Finding → Prop
  | .lexical e => (scan source)[e.line]? = some (.error ⟨lineAt source e.line, e.cause⟩)
  | .syntactic e => (scan source)[e.token.line]? = some (.ok (e.token.move (lineAt source)))
  | .binding e => ∃ t, (scan source)[e.site.line]? = some (.ok t) ∧ t.lexeme = e.site.text

/-- The second finding is late: the missing target of an assignment behind an error in its value, or
    an error in the increment of a `for` behind one in its body. -/
def Late (source : String) : Finding → Finding → Prop
  | .syntactic first, .syntactic second => LateTarget (placedStart source) first second
  | .binding first, .binding second => LateIncrement (placedStart source) first.site second.site
  | _, _ => False

theorem sortLine_report (source : String) (f : Finding) :
    (f.report source).sortLine = lineAt source f.place := by
  cases f <;> rfl

theorem Stands.place_lt {source : String} {f : Finding} (h : f.Stands source) :
    f.place < (scan source).length := by
  cases f with
  | lexical e => exact (List.getElem?_eq_some_iff.mp h).1
  | syntactic e => exact (List.getElem?_eq_some_iff.mp h).1
  | binding e =>
    obtain ⟨t, ht, -⟩ := h
    exact (List.getElem?_eq_some_iff.mp ht).1

end Finding

section Findings

variable (source : String)

/-- The errors of the scanner and the parser, with their places. -/
def earlyFindings (errors : List SyntaxError) : List Finding :=
  (placedErrors source).map .lexical ++ errors.map .syntactic

/-- The static errors of a source in the order in which they are found: those of the scanner and the
    parser, or if there are none those of the binder. -/
def findings : List Finding :=
  let (program, errors, _) := (placedStart source).program
  let early := earlyFindings source errors
  if early.isEmpty then (Program.bindings program).errors.map .binding else early

/-- The reports of the static errors that a session finds in a source, in the order in which they are
    found. -/
def Session.staticErrors (s : Session) (source : String) : List Diagnostic :=
  let (program, errors, _) := (Cursor.start (tokens source) s.nextId).program
  let early := earlyReports source errors
  if early.isEmpty then (Program.bindings program).errors.map BindingError.report else early

theorem map_report_earlyFindings (errors : List SyntaxError) :
    (earlyFindings source errors).map (Finding.report source)
      = Session.earlyReports source (errors.map (SyntaxError.move (lineAt source))) := by
  rw [earlyFindings, Session.earlyReports, lexicalErrors_eq_map_placedErrors]
  simp only [List.map_append, List.map_map]
  rfl

/-- Every session finds the same errors. -/
theorem Session.staticErrors_eq (s : Session) :
    s.staticErrors source = (findings source).map (Finding.report source) := by
  rcases hread : (placedStart source).program with ⟨program, errors, cursor⟩
  obtain ⟨cursor', hread', -⟩ :=
    Cursor.program_relocated (placedStart_relocated source s.nextId) hread
  have hbound := Program.errors_moved (σ := Relocation.shift ⟨lineAt source, 0, s.nextId⟩)
    (withGap_injective 0 s.nextId) program
  simp only [staticErrors, hread', findings, hread, ← map_report_earlyFindings,
    List.isEmpty_map, hbound]
  split
  · rw [List.map_map, List.map_map]
    rfl
  · rfl

/-! ### The order of findings -/

theorem pairwise_earlyFindings {errors : List SyntaxError}
    (h : errors.Pairwise fun a b =>
      a.token.line ≤ b.token.line ∨ LateTarget (placedStart source) a b) :
    (earlyFindings source errors).Pairwise fun a b =>
      a.pass = b.pass → a.place ≤ b.place ∨ a.Late source b := by
  refine List.pairwise_append.mpr ⟨?_, ?_, ?_⟩
  · exact List.pairwise_map.mpr ((pairwise_placedErrors source).imp fun hlt _ =>
      Or.inl (Nat.le_of_lt hlt))
  · refine List.pairwise_map.mpr (h.imp ?_)
    intro a b hab _
    exact hab
  · intro a ha b hb hpass
    obtain ⟨e, -, rfl⟩ := List.mem_map.mp ha
    obtain ⟨e', -, rfl⟩ := List.mem_map.mp hb
    cases hpass

theorem pairwise_bindingFindings {errors : List BindingError} {sites : List Name}
    (hsites : (errors.map BindingError.site).Sublist sites)
    (h : sites.Pairwise fun a b => a.line ≤ b.line ∨ LateIncrement (placedStart source) a b) :
    (errors.map Finding.binding).Pairwise fun a b =>
      a.pass = b.pass → a.place ≤ b.place ∨ a.Late source b := by
  refine List.pairwise_map.mpr ((List.pairwise_map.mp (h.sublist hsites)).imp ?_)
  intro a b hab _
  exact hab

/-- The findings of a pass come in the order of the source, except for late ones. -/
theorem pairwise_findings : (findings source).Pairwise fun a b =>
    a.pass = b.pass → a.place ≤ b.place ∨ a.Late source b := by
  rcases hread : (placedStart source).program with ⟨program, errors, cursor⟩
  obtain ⟨horder, hwellFormed⟩ := placedStart_in_order source hread
  simp only [findings, hread]
  split
  · exact pairwise_bindingFindings source (Program.errors_at_sites hwellFormed) horder.sites
  · exact pairwise_earlyFindings source horder.found

/-- What is wrong stands at its place. -/
theorem stands_of_mem_findings : ∀ f ∈ findings source, f.Stands source := by
  rcases hread : (placedStart source).program with ⟨program, errors, cursor⟩
  obtain ⟨horder, hwellFormed⟩ := placedStart_in_order source hread
  have htoken : ∀ t ∈ (placedStart source).left,
      (scan source)[t.line]? = some (.ok (t.move (lineAt source))) := by
    intro t ht
    rw [left_placedStart] at ht
    exact getElem?_of_mem_placedScan (mem_placedScan_of_mem_placedTokens ht)
  simp only [findings, hread]
  split
  · have hsites := Program.errors_at_sites hwellFormed
    refine List.forall_mem_map.mpr fun e he => ?_
    obtain ⟨t, ht, hlexeme, hline⟩ :=
      horder.names e.site (hsites.subset (List.mem_map_of_mem he))
    have hstands := htoken t ht
    rw [hline] at hstands
    exact ⟨_, hstands, hlexeme⟩
  · refine List.forall_mem_append.mpr ⟨?_, ?_⟩
    · exact List.forall_mem_map.mpr fun e he =>
        getElem?_of_mem_placedScan (mem_placedScan_of_mem_placedErrors he)
    · exact List.forall_mem_map.mpr fun e he => htoken e.token (horder.tokens e he)

end Findings

/-! ### Rejected sources -/

namespace Session

/-- A source is rejected if it has static errors, and they are reported in order. -/
theorem rejected_iff {steps : Nat} {s : Session} {source : String} {reports : List Diagnostic} :
    (s.run steps source).1 = .error (.rejected reports)
      ↔ s.staticErrors source ≠ [] ∧ reports = Diagnostic.sorted (s.staticErrors source) := by
  rcases hread : (Cursor.start (tokens source) s.nextId).program with ⟨program, errors, cursor⟩
  simp only [Session.run, hread, runChecked, staticErrors]
  by_cases hearly : (earlyReports source errors).isEmpty = true
  · rw [if_pos hearly, if_pos hearly]
    by_cases hbound : (Program.bindings program).errors.isEmpty = true
    · rw [if_pos hbound, List.isEmpty_iff.mp hbound]
      exact ⟨fun h => absurd h (runWith_ne_rejected _ _ _ reports), fun h => absurd rfl h.1⟩
    · rw [if_neg hbound]
      have hne : (Program.bindings program).errors.map BindingError.report ≠ [] := by
        rwa [Ne, List.map_eq_nil_iff, ← List.isEmpty_iff]
      exact ⟨fun h => by cases h; exact ⟨hne, rfl⟩, fun h => by rw [h.2]⟩
  · rw [if_neg hearly, if_neg hearly]
    have hne : earlyReports source errors ≠ [] := by rwa [Ne, ← List.isEmpty_iff]
    exact ⟨fun h => by cases h; exact ⟨hne, rfl⟩, fun h => by rw [h.2]⟩

/-- A rejected source is reported by all static errors that the session finds in it: those of the
    scanner and the parser, or if there are none those of the binder.  The lines of the reports do not
    go down.  Of two errors that were found in one pass, the one that is reported first stands in front
    of the other, even on the same line, unless the other is late: the missing target of an assignment
    behind an error in its value, or an error in the increment of a `for` behind one in its body. -/
theorem rejected_in_order {steps : Nat} {s : Session} {source : String}
    {reports : List Diagnostic} (h : (s.run steps source).1 = .error (.rejected reports)) :
    reports.Perm (s.staticErrors source)
      ∧ (reports.Pairwise fun a b => a.sortLine ≤ b.sortLine)
      ∧ ∃ found : List Finding, found.Perm (findings source)
        ∧ reports = found.map (Finding.report source)
        ∧ (∀ f ∈ found, f.Stands source)
        ∧ found.Pairwise fun a b => a.pass = b.pass → a.place ≤ b.place
          ∨ (lineAt source a.place = lineAt source b.place ∧ a.Late source b) := by
  have hreports := (rejected_iff.mp h).2
  let line (f : Finding) : Nat := lineAt source f.place
  have hsorted : reports = ((findings source).mergeSort (byKey line)).map (Finding.report source) := by
    rw [hreports, Diagnostic.sorted, staticErrors_eq]
    exact (List.map_mergeSort fun a _ b _ => by
      simp only [byKey, Diagnostic.notAfter, Finding.sortLine_report, line]).symm
  have hperm := List.mergeSort_perm (findings source) (byKey line)
  have horder := pairwise_mergeSort_byKey line (pairwise_findings source)
  have hstands : ∀ f ∈ (findings source).mergeSort (byKey line), f.Stands source :=
    fun f hf => stands_of_mem_findings source f (hperm.mem_iff.mp hf)
  refine ⟨?_, ?_, _, hperm, hsorted, hstands, ?_⟩
  · rw [hreports]
    exact List.mergeSort_perm _ _
  · rw [hsorted]
    refine List.pairwise_map.mpr (horder.imp fun hab => ?_)
    rw [Finding.sortLine_report, Finding.sortLine_report]
    exact hab.1
  · refine List.Pairwise.imp_of_mem ?_ horder
    intro a b ha hb hab hpass
    rcases Nat.lt_or_eq_of_le hab.1 with hlt | heq
    · -- On an earlier line means at an earlier place.
      refine Or.inl (Nat.le_of_not_lt fun hplace => Nat.not_le.mpr hlt ?_)
      exact lineAt_mono (Nat.le_of_lt hplace) (hstands a ha).place_lt
    · exact (hab.2 heq hpass).imp_right fun hlate => ⟨heq, hlate⟩

/-- Errors of two passes on two lines. -/
theorem rejected_in_order_two_lines :
    let source := "print @ ;\n1 = 2 = 3; $"
    let reports : List Diagnostic :=
      [.lexical 1 "Unexpected character: @", .syntactic 1 (.lexeme ";") "Expected expression.",
        .lexical 2 "Unexpected character: $",
        .syntactic 2 (.lexeme "=") "Invalid assignment target.",
        .syntactic 2 (.lexeme "=") "Invalid assignment target."]
    ((start .unlimited).run 0 source).1 = .error (.rejected reports)
      ∧ ∃ found : List Finding, found.Perm (findings source)
        ∧ reports = found.map (Finding.report source)
        ∧ (∀ f ∈ found, f.Stands source)
        ∧ found.Pairwise fun a b => a.pass = b.pass → a.place ≤ b.place
          ∨ (lineAt source a.place = lineAt source b.place ∧ a.Late source b) := by
  intro source reports
  have herrors : (start .unlimited).staticErrors source =
      [.lexical 1 "Unexpected character: @", .lexical 2 "Unexpected character: $",
        .syntactic 1 (.lexeme ";") "Expected expression.",
        .syntactic 2 (.lexeme "=") "Invalid assignment target.",
        .syntactic 2 (.lexeme "=") "Invalid assignment target."] := by decide +kernel
  have hrejected : ((start .unlimited).run 0 source).1 = .error (.rejected reports) := by
    refine rejected_iff.mpr ⟨by rw [herrors]; exact List.cons_ne_nil _ _, ?_⟩
    rw [herrors]
    simp [reports, Diagnostic.sorted, List.mergeSort, List.MergeSort.Internal.splitInTwo,
      Diagnostic.notAfter, Diagnostic.sortLine, Diagnostic.line?]
  exact ⟨hrejected, (rejected_in_order hrejected).2.2⟩

/-- An error in the increment of a `for` is reported after one in the body on the same line, although
    it stands in front of it. -/
theorem increment_reported_late :
    let source := "for (;;this) print super.x;"
    let reports : List Diagnostic :=
      [.binding 1 (.lexeme "super") "Can't use 'super' outside of a class.",
        .binding 1 (.lexeme "this") "Can't use 'this' outside of a class."]
    ((start .unlimited).run 0 source).1 = .error (.rejected reports)
      ∧ ∀ found : List Finding, found.Perm (findings source) →
        reports = found.map (Finding.report source) →
        ¬ found.Pairwise fun a b => a.pass = b.pass → a.place ≤ b.place := by
  intro source reports
  have herrors : (start .unlimited).staticErrors source = reports := by decide +kernel
  have hfindings : findings source = [.binding ⟨⟨"super", 7⟩, .superOutsideClass⟩,
      .binding ⟨⟨"this", 4⟩, .thisOutsideClass⟩] := by decide +kernel
  refine ⟨rejected_iff.mpr ⟨by rw [herrors]; exact List.cons_ne_nil _ _, ?_⟩, ?_⟩
  · rw [herrors]
    simp [reports, Diagnostic.sorted, List.mergeSort, List.MergeSort.Internal.splitInTwo,
      Diagnostic.notAfter, Diagnostic.sortLine, Diagnostic.line?]
  · intro found hperm hreports hplaces
    rw [hfindings, List.perm_pair] at hperm
    rcases hperm with rfl | rfl
    · have hplace := List.rel_of_pairwise_cons hplaces List.mem_cons_self rfl
      exact absurd hplace (by decide)
    · have hplace := (Diagnostic.binding.inj (List.cons.inj hreports).1).2.1
      exact absurd hplace (by decide)

end Session

end Treewalk
