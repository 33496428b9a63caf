import Treewalk.Proofs.Binding.Joining
import Treewalk.Proofs.Session.Soundness
import Treewalk.Proofs.Syntax.Joining

/-!
# Sources that are accepted

**Whether a source has static errors does not depend on the session.**  Two accepted sources with a
line feed between them are an accepted source again, which is the program of the one followed by
that of the other.
-/

namespace Treewalk

namespace Session

/-- The source has no static errors. -/
def Accepted (source : String) : Prop :=
  ∀ reports, ((start .unlimited).run 0 source).1 ≠ .error (.rejected reports)

instance (source : String) : Decidable (Accepted source) :=
  match hresult : ((start .unlimited).run 0 source).1 with
  | .error (.rejected reports) => isFalse fun h => h reports hresult
  | .error (.halted _) => isTrue fun reports h => by rw [hresult] at h; cases h
  | .ok _ => isTrue fun reports h => by rw [hresult] at h; cases h

example : Accepted "{ var a = true; print a; }" ∧ ¬ Accepted "{ var a = a; }" := by decide +kernel

/-- A source is a program without static errors, its references numbered from `first` on. -/
structure Reads (source : String) (first : Nat) (program : Program) (last : Nat) : Prop where
  lexical : lexicalErrors source = []
  read : ∃ cursor, (Cursor.start (tokens source) first).program = (program, [], cursor)
    ∧ cursor.nextId = last
  bound : (Program.bindings program).errors = []

section Reading

variable {source : String} {first last : Nat} {program : Program}

/-- Such a source is run. -/
theorem Reads.run {s : Session} (h : Reads source s.nextId program last) (steps : Nat) :
    s.run steps source
      = runWith { s with nextId := last } (Program.bindings program) (Run.interpret steps program) := by
  obtain ⟨cursor, hread, rfl⟩ := h.read
  have hearly : (earlyReports source []).isEmpty = true := by
    rw [earlyReports, h.lexical]
    rfl
  have hbound : (Program.bindings program).errors.isEmpty = true := by rw [h.bound]; rfl
  simp only [Session.run, hread, runChecked, hearly, hbound, if_true]

theorem runWith_ne_rejected {α : Type} (s : Session) (bindings : Bindings) (body : Run α)
    (reports : List Diagnostic) : (s.runWith bindings body).1 ≠ .error (.rejected reports) := by
  unfold runWith
  dsimp only
  rcases body (s.machine.learn bindings.hops) with ⟨result, m⟩ | ⟨halt, m⟩ <;> intro h <;> cases h

theorem Reads.ne_rejected {s : Session} (h : Reads source s.nextId program last) (steps : Nat)
    (reports : List Diagnostic) : (s.run steps source).1 ≠ .error (.rejected reports) := by
  rw [h.run]
  exact runWith_ne_rejected _ _ _ reports

/-- A source that is not rejected has none of the errors for which it could be. -/
theorem reads_of_ne_rejected {s : Session} {steps : Nat}
    (h : ∀ reports, (s.run steps source).1 ≠ .error (.rejected reports)) :
    ∃ program last, Reads source s.nextId program last := by
  rcases hread : (Cursor.start (tokens source) s.nextId).program with ⟨program, errors, cursor⟩
  simp only [Session.run, hread, runChecked] at h
  by_cases hearly : (earlyReports source errors).isEmpty = true
  · rw [if_pos hearly] at h
    by_cases hbound : (Program.bindings program).errors.isEmpty = true
    · have hreports := List.append_eq_nil_iff.mp (List.isEmpty_iff.mp hearly)
      have hlexical := List.map_eq_nil_iff.mp hreports.1
      cases List.map_eq_nil_iff.mp hreports.2
      exact ⟨program, cursor.nextId, hlexical, ⟨cursor, hread, rfl⟩, List.isEmpty_iff.mp hbound⟩
    · rw [if_neg hbound] at h
      exact absurd rfl (h _)
  · rw [if_neg hearly] at h
    exact absurd rfl (h _)

theorem accepted_iff : Accepted source ↔ ∃ program last, Reads source 0 program last :=
  ⟨fun h => reads_of_ne_rejected h,
    fun ⟨_, _, h⟩ reports => Reads.ne_rejected (s := start .unlimited) h 0 reports⟩

/-- A source is read in the same way with larger numbers. -/
theorem Reads.renumber (h : Reads source first program last) (k : Nat) :
    ∃ program' last', Reads source (first + k) program' last' := by
  obtain ⟨cursor, hread, -⟩ := h.read
  let ι : Embedding := ⟨id, k, []⟩
  have hinside : (Cursor.start (tokens source) first).Inside ι
      (Cursor.start (tokens source) (first + k)) := by
    rw [Cursor.start_eq, Cursor.start_eq]
    refine ⟨?_, rfl, rfl, rfl⟩
    show ownTokens source = (ownTokens source).map (Token.move id) ++ []
    rw [show Token.move id = id from rfl, List.map_id, List.append_nil]
  obtain ⟨e, hmoved, -⟩ := Cursor.program_moved rfl (by rw [Cursor.start_eq]) hinside hread
  refine ⟨_, e.nextId, h.lexical, ⟨e, hmoved, rfl⟩, ?_⟩
  rw [Program.errors_moved (fun a b hab => Nat.add_right_cancel hab), h.bound]
  rfl

/-- No session rejects an accepted source. -/
theorem Accepted.reads (h : Accepted source) (first : Nat) :
    ∃ program last, Reads source first program last := by
  obtain ⟨program, last, hreads⟩ := accepted_iff.mp h
  rw [← Nat.zero_add first]
  exact hreads.renumber first

end Reading

/-! ### Two sources -/

section Joining

variable {first last : Nat} {source next : String} {program rest : Program} {middle : Nat}

theorem Reads.wellFormed (h : Reads source first program last) : WellFormedStatements program := by
  obtain ⟨cursor, hread, -⟩ := h.read
  have hwell := (Cursor.program_numbered (Cursor.start_lexed source first)).2.2
  rw [hread] at hwell
  exact hwell

theorem Reads.nodup (h : Reads source first program last) : (statementReferences program).Nodup := by
  obtain ⟨cursor, hread, -⟩ := h.read
  have hnumbered := (Cursor.program_numbered (Cursor.start_lexed source first)).2.1
  rw [hread] at hnumbered
  exact hnumbered.nodup

/-- The bindings of two sources, when the second one is read behind the first. -/
theorem Reads.displaced (h : Reads source first program middle) (f : Nat → Nat) (rest : Program) :
    Bindings.Displaced (.ofLines f) (Program.bindings program) (Program.bindings rest)
      (Program.bindings (program ++ moveStatements (.ofLines f) rest)) :=
  Program.bindings_append f rest h.wellFormed

/-- Two sources, one behind the other, are read as both programs. -/
theorem Reads.seam (h : Reads source first program middle) (hnext : Reads next middle rest last) :
    Reads (source ++ "\n" ++ next) first
      (program ++ moveStatements (.ofLines (· + lineCount source)) rest) last := by
  obtain ⟨cursor, hread, rfl⟩ := h.read
  obtain ⟨cursor', hread', rfl⟩ := hnext.read
  obtain ⟨e, hboth, hlast⟩ := Cursor.program_seam h.lexical hread hread'
  refine ⟨?_, ⟨e, hboth, hlast⟩, ?_⟩
  · rw [lexicalErrors_seam h.lexical, hnext.lexical]
    rfl
  · rw [(h.displaced _ _).errors, h.bound, hnext.bound]
    rfl

theorem Accepted.seam (h : Accepted source) (hnext : Accepted next) :
    Accepted (source ++ "\n" ++ next) := by
  obtain ⟨program, middle, hreads⟩ := h.reads 0
  obtain ⟨rest, last, hreads'⟩ := hnext.reads middle
  exact accepted_iff.mpr ⟨_, _, hreads.seam hreads'⟩

end Joining

/-! ### Blank lines -/

/-- A number of empty lines. -/
def blankLines (k : Nat) : String :=
  String.ofList (List.replicate k '\n')

theorem blankLines_succ (k : Nat) : blankLines (k + 1) = blankLines k ++ "\n" ++ "" := by
  rw [← String.toList_inj]
  simp [blankLines, List.replicate_succ']

theorem lineCount_blankLines (k : Nat) : lineCount (blankLines k) = k + 1 := by
  simp [lineCount, blankLines]

theorem reads_empty (first : Nat) : Reads "" first [] first := by
  have hown : ownTokens "" = [] := by decide +kernel
  refine ⟨by decide +kernel, ⟨Cursor.start (tokens "") first, ?_, ?_⟩, rfl⟩
  · rw [Cursor.start_eq, hown]
    exact Cursor.program_of_ok rfl (Parser.declarations_of_nil rfl) rfl
  · rw [Cursor.start_eq]

theorem reads_blankLines (k first : Nat) : Reads (blankLines k) first [] first := by
  induction k with
  | zero => exact reads_empty first
  | succ k ih =>
    rw [blankLines_succ]
    exact ih.seam (reads_empty first)

/-- A source that comes after empty lines stands further down, and that is all. -/
theorem Reads.below {source : String} {first last : Nat} {program : Program}
    (h : Reads source first program last) (k : Nat) :
    Reads (blankLines k ++ source) first (moveStatements (.ofLines (· + k)) program) last := by
  rcases k with _ | k
  · have hsame : moveStatements (.ofLines (· + 0)) program = program := moveStatements_same program
    rw [hsame, show blankLines 0 = "" from rfl, String.empty_append]
    exact h
  · have hseam := (reads_blankLines k first).seam h
    rw [lineCount_blankLines, List.nil_append] at hseam
    rw [blankLines_succ, String.append_empty]
    exact hseam

end Session

end Treewalk
