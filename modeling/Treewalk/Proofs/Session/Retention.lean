import Mathlib.Data.List.Pairwise
import Treewalk.Proofs.Binding.Lexical
import Treewalk.Proofs.Session.Incremental
import Treewalk.Proofs.Session.Rejection

/-!
# What stays in the table

**Between two sources the table holds the hop counts of the references inside functions, and no
others.**  Code outside functions has run, and never runs again.  A function may be called at any
later time, whether the source that declares it ran to its end or failed.

Sources do not get in each other's way, since every source has numbers of its own, also one that
is rejected.
-/

namespace Treewalk

/-! ### Inside and outside of functions -/

/-- The reference lies in the body of a function or method and has this hop count. -/
def Program.Retains (program : Program) (id hops : Nat) : Prop :=
  ∃ o ∈ Program.occurrences program, o.id? = some id ∧ o.around.function? ≠ none
    ∧ (Program.bindings program).hops[id]? = some hops

instance (program : Program) (id hops : Nat) : Decidable (program.Retains id hops) :=
  inferInstanceAs (Decidable (∃ o ∈ Program.occurrences program, _))

/-- Where a number occurs only once, its occurrence is known. -/
theorem Occurrence.eq_of_id? {occurrences : List Occurrence}
    (hnodup : (occurrences.filterMap Occurrence.id?).Nodup) {o other : Occurrence}
    (ho : o ∈ occurrences) (hother : other ∈ occurrences) {id : Nat} (hid : o.id? = some id)
    (hid' : other.id? = some id) : o = other := by
  by_contra hne
  have hapart := List.pairwise_filterMap.mp hnodup
  have hsymm : Std.Symm fun o other : Occurrence =>
      ∀ id, o.id? = some id → ∀ id', other.id? = some id' → id ≠ id' := by
    constructor
    intro o other h id hid id' hid' heq
    exact h id' hid' id hid heq.symm
  exact hapart.forall ho hother hne id hid id hid' rfl

theorem Occurrence.outside?_eq_some_iff {o : Occurrence} {id : Nat} :
    o.outside? = some id ↔ o.around.function? = none
      ∧ ∃ text, o.what.reference? = some (id, text) ∧ (o.around.hops? text).isSome := by
  unfold Occurrence.outside?
  rcases o.what.reference? with _ | ⟨other, text⟩
  · simp
  · simp only [Option.some.injEq, Prod.mk.injEq]
    split
    · simp_all
    · simp_all

section Programs

variable {program : Program} {first last : Nat}

/-- What is left of the hop counts of a program is that of the references inside functions. -/
theorem Program.retains_iff (hwell : WellFormedStatements program)
    (hnumbered : Numbered first last (statementReferences program)) {id hops : Nat} :
    program.Retains id hops
      ↔ id ∉ (Program.bindings program).topLevel
        ∧ (Program.bindings program).hops[id]? = some hops := by
  have hids : (Program.occurrences program).filterMap Occurrence.id? = statementReferences program :=
    ids_statementOccurrences [] program
  have hnodup : ((Program.occurrences program).filterMap Occurrence.id?).Nodup :=
    hids ▸ hnumbered.nodup
  have hmeets := Program.meets_bindings hwell
  have hempty : ∀ id : Nat, Bindings.empty.hops[id]? = none := fun id => by simp [Bindings.empty]
  constructor
  · rintro ⟨o, ho, hid, hinside, hhops⟩
    refine ⟨fun htop => ?_, hhops⟩
    rw [hmeets.topLevel] at htop
    obtain ⟨other, hother, houtside⟩ := List.mem_filterMap.mp htop
    obtain ⟨hfunction, text, hreference, -⟩ := Occurrence.outside?_eq_some_iff.mp houtside
    have hid' : other.id? = some id := by rw [Occurrence.id?, hreference]; rfl
    rw [Occurrence.eq_of_id? hnodup ho hother hid hid'] at hinside
    exact hinside hfunction
  · rintro ⟨htop, hhops⟩
    have hmem : id ∈ (Program.occurrences program).filterMap Occurrence.id? := by
      by_contra hnot
      rw [hmeets.hops, getElem?_records_of_not_mem hnot, hempty] at hhops
      cases hhops
    obtain ⟨o, ho, hid⟩ := List.mem_filterMap.mp hmem
    refine ⟨o, ho, hid, fun hfunction => htop ?_, hhops⟩
    obtain ⟨⟨other, text⟩, hreference, rfl⟩ := Option.map_eq_some_iff.mp hid
    rw [hmeets.hops, getElem?_records hnodup ho hreference (hempty _)] at hhops
    rw [hmeets.topLevel]
    refine List.mem_filterMap.mpr ⟨o, ho, Occurrence.outside?_eq_some_iff.mpr ⟨hfunction, text, ?_⟩⟩
    exact ⟨hreference, by rw [hhops]; rfl⟩

end Programs

/-! ### Outside every scope -/

namespace Bindings

/-- Nothing is recorded about references. -/
def SameTable (b later : Bindings) : Prop :=
  later.hops = b.hops ∧ later.topLevel = b.topLevel

theorem SameTable.trans {b middle later : Bindings} (h : b.SameTable middle)
    (hlater : middle.SameTable later) : b.SameTable later :=
  ⟨hlater.1.trans h.1, hlater.2.trans h.2⟩

theorem sameTable_noteIf (b : Bindings) (condition : Bool) (site : Name) (fault : BindingFault) :
    b.SameTable (b.noteIf condition site fault) :=
  ⟨b.hops_noteIf .., b.topLevel_noteIf ..⟩

theorem sameTable_checkSuper (b : Bindings) (around : Surroundings) (site : Name) :
    b.SameTable (b.checkSuper around site) := by
  unfold checkSuper
  split <;> exact ⟨rfl, rfl⟩

theorem sameTable_refer {b checked : Bindings} (h : b.SameTable checked)
    (hscopes : checked.scopes = []) (around : Surroundings) (id : Nat) (text : String) :
    b.SameTable (checked.refer around id text) := by
  unfold refer
  rw [hscopes]
  exact h

end Bindings

open Bindings

mutual

/-- A single expression opens no scope, so all its references are global. -/
theorem Expr.sameTable_bindNames (around : Surroundings) : ∀ (e : Expr) {b : Bindings},
    b.scopes = [] → b.SameTable (e.bindNames around b)
  | .literal _, _, _ => ⟨rfl, rfl⟩
  | .grouping inner, _, h => inner.sameTable_bindNames around h
  | .unary _ _ operand, _, h => operand.sameTable_bindNames around h
  | .binary _ _ left right, b, h =>
    (left.sameTable_bindNames around h).trans
      (right.sameTable_bindNames around ((left.scopes_bindNames around b).trans h))
  | .logical _ _ left right, b, h =>
    (left.sameTable_bindNames around h).trans
      (right.sameTable_bindNames around ((left.scopes_bindNames around b).trans h))
  | .variable name id, b, h =>
    sameTable_refer (b.sameTable_noteIf ..) ((b.scopes_noteIf ..).trans h) around id name.text
  | .assign name id value, b, h =>
    sameTable_refer (value.sameTable_bindNames around h) ((value.scopes_bindNames around b).trans h)
      around id name.text
  | .call callee _ args, b, h =>
    (callee.sameTable_bindNames around h).trans
      (sameTable_bindArguments around args ((callee.scopes_bindNames around b).trans h))
  | .get object _, _, h => object.sameTable_bindNames around h
  | .set object _ value, b, h =>
    (object.sameTable_bindNames around h).trans
      (value.sameTable_bindNames around ((object.scopes_bindNames around b).trans h))
  | .this _ id, b, h =>
    sameTable_refer (b.sameTable_noteIf ..) ((b.scopes_noteIf ..).trans h) around id "this"
  | .super _ id _, b, h =>
    sameTable_refer (b.sameTable_checkSuper ..) ((b.scopes_checkSuper ..).trans h) around id "super"

theorem sameTable_bindArguments (around : Surroundings) : ∀ (args : List Expr) {b : Bindings},
    b.scopes = [] → b.SameTable (bindArguments around args b)
  | [], _, _ => ⟨rfl, rfl⟩
  | argument :: args, b, h =>
    (argument.sameTable_bindNames around h).trans
      (sameTable_bindArguments around args ((argument.scopes_bindNames around b).trans h))

end

theorem Expr.bindings_unrecorded (e : Expr) : e.bindings.hops = ∅ ∧ e.bindings.topLevel = [] :=
  e.sameTable_bindNames .topLevel (b := .empty) rfl

namespace Session

/-! ### One source -/

/-- The program that a source is, if it has no static errors. -/
def program? (s : Session) (source : String) : Option Program :=
  let (program, errors, _) := (Cursor.start (tokens source) s.nextId).program
  if (earlyReports source errors).isEmpty ∧ (Program.bindings program).errors.isEmpty then
    some program
  else
    none

theorem program?_eq_some_iff {s : Session} {source : String} {program : Program} :
    s.program? source = some program ↔ ∃ last, Reads source s.nextId program last := by
  rcases hread : (Cursor.start (tokens source) s.nextId).program with ⟨read, errors, cursor⟩
  simp only [program?, hread]
  constructor
  · intro h
    split at h
    · rename_i hchecks
      cases h
      obtain ⟨hlexical, herrors⟩ := List.append_eq_nil_iff.mp (List.isEmpty_iff.mp hchecks.1)
      cases List.map_eq_nil_iff.mp herrors
      exact ⟨cursor.nextId, List.map_eq_nil_iff.mp hlexical, ⟨cursor, hread, rfl⟩,
        List.isEmpty_iff.mp hchecks.2⟩
    · cases h
  · rintro ⟨last, hlexical, ⟨cursor', hread', -⟩, hbound⟩
    rw [hread] at hread'
    cases hread'
    rw [if_pos]
    exact ⟨by rw [earlyReports, hlexical]; rfl, by rw [hbound]; rfl⟩

/-- Sources without a program are the ones that are rejected. -/
theorem program?_eq_none_iff {s : Session} {source : String} (steps : Nat) :
    s.program? source = none ↔ ∃ reports, (s.run steps source).1 = .error (.rejected reports) := by
  constructor
  · intro h
    by_contra hnot
    obtain ⟨program, last, hreads⟩ :=
      reads_of_ne_rejected fun reports hreports => hnot ⟨reports, hreports⟩
    rw [program?_eq_some_iff.mpr ⟨last, hreads⟩] at h
    cases h
  · rintro ⟨reports, hreports⟩
    by_contra hsome
    obtain ⟨program, hprogram⟩ := Option.ne_none_iff_exists'.mp hsome
    obtain ⟨last, hreads⟩ := program?_eq_some_iff.mp hprogram
    exact hreads.ne_rejected steps reports hreports

/-- The table behind a body, however it ends. -/
theorem hops_runWith {α : Type} {s : Session} {bindings : Bindings} {kept : Nat → Prop}
    {body : Run α} {Q : α → Machine → Prop}
    (h : Run.Keeps (sound (s.machine.hops ∪ bindings.hops) kept) body
      (s.machine.learn bindings.hops) Q) :
    (s.runWith bindings body).2.machine.hops
      = bindings.topLevel.foldl (fun hops id => hops.erase id) (s.machine.hops ∪ bindings.hops) := by
  unfold Run.Keeps at h
  unfold runWith
  dsimp only
  rcases hrun : body (s.machine.learn bindings.hops) with ⟨result, after⟩ | ⟨halt, after⟩ <;>
    rw [hrun] at h
  · exact congrArg (bindings.topLevel.foldl fun hops id => hops.erase id) h.1.hops
  · exact congrArg (bindings.topLevel.foldl fun hops id => hops.erase id) h.1.hops

section Steps

variable {kept : Nat → Prop} {s : Session}

/-- A source that is run gets numbers that the table has no entries for. -/
theorem Sound.disjoint (h : s.Sound kept) {source : String} {program : Program} {last : Nat}
    (hreads : Reads source s.nextId program last) {id : Nat}
    (hid : id ∈ (Program.bindings program).hops) : id ∉ s.machine.hops := by
  obtain ⟨-, hnumbered, -⟩ := hreads.placed h
  rw [Std.ExtTreeMap.mem_iff_isSome_getElem?] at hid ⊢
  have hge : s.nextId ≤ id := by
    by_contra hlt
    rw [(Program.within_bindings hnumbered).before id (Nat.lt_of_not_le hlt)] at hid
    cases hid
  rw [h.unused id hge]
  simp

/-- A source that is run adds the hop counts that it retains. -/
theorem Sound.hops_run (h : s.Sound kept) {source : String} {program : Program} {last : Nat}
    (hreads : Reads source s.nextId program last) (steps id hops : Nat) :
    (s.run steps source).2.machine.hops[id]? = some hops
      ↔ s.machine.hops[id]? = some hops ∨ program.Retains id hops := by
  obtain ⟨-, hnumbered, hplaced⟩ := hreads.placed h
  have hwithin := Program.within_bindings hnumbered
  have hkeeps := Run.sound_interpret steps (h.learn hwithin) h.current hplaced
  rw [hreads.run, hops_runWith (s := { s with nextId := last }) hkeeps, getElem?_forget,
    getElem?_learn, Program.retains_iff hreads.wellFormed hnumbered]
  rcases Nat.lt_or_ge id s.nextId with hlt | hge
  · have hnot : id ∉ (Program.bindings program).topLevel := fun htop =>
      Nat.not_le_of_lt hlt (hwithin.topLevel id htop).1
    rw [if_neg hnot, hwithin.before id hlt]
    simp
  · rw [h.unused id hge, Option.or_none]
    split <;> simp_all

/-- A single expression adds nothing, and drops nothing. -/
theorem Sound.hops_evaluate (h : s.Sound kept) (steps : Nat) (source : String) :
    (s.evaluate steps source).2.machine.hops = s.machine.hops := by
  unfold Session.evaluate
  rcases hread : (Cursor.start (tokens source) s.nextId).expression with ⟨value?, errors, cursor⟩
  rcases value? with _ | value
  · rfl
  · obtain ⟨-, hnumbered, hplaced⟩ := h.read_expression hread
    dsimp only
    unfold Session.runChecked
    split
    · split
      · rename_i herrors
        have hlearn : (s.machine.learn value.bindings.hops).Sound
            (s.machine.hops ∪ value.bindings.hops) fun id => kept id ∨ False :=
          h.learn (Expr.within_bindings hnumbered)
        have hfits : (s.machine.learn value.bindings.hops).store.Fits
            (s.machine.learn value.bindings.hops).current [] := h.current
        have hkeeps := Run.sound_evaluate steps value hlearn hfits
          (hplaced (List.isEmpty_iff.mp herrors))
        obtain ⟨hhops, htopLevel⟩ := value.bindings_unrecorded
        rw [hops_runWith (s := { s with nextId := cursor.nextId }) hkeeps, htopLevel, hhops]
        refine Std.ExtTreeMap.ext_getElem? fun id => ?_
        rw [List.foldl_nil, getElem?_learn, Std.ExtTreeMap.getElem?_empty, Option.none_or]
      · rfl
    · rfl

end Steps

/-! ### Histories -/

/-- The programs in a history that have no static errors, whether they ran to their ends or not.
    Single expressions are none. -/
def programs (s : Session) : List Request → List Program
  | [] => []
  | .run steps source :: rest =>
    (s.program? source).toList ++ programs (s.perform (.run steps source)).2 rest
  | .evaluate steps source :: rest => programs (s.perform (.evaluate steps source)).2 rest

section Histories

variable {kept : Nat → Prop} {s : Session}

/-- What one source changes in the table. -/
theorem Sound.hops_perform (h : s.Sound kept) (request : Request) (id hops : Nat) :
    (s.perform request).2.machine.hops[id]? = some hops
      ↔ s.machine.hops[id]? = some hops ∨ ∃ program ∈ s.programs [request], program.Retains id hops := by
  rcases request with ⟨steps, source⟩ | ⟨steps, source⟩
  · rcases hprogram : s.program? source with _ | program
    · obtain ⟨reports, hreports⟩ := (program?_eq_none_iff steps).mp hprogram
      obtain ⟨-, nextId, -, hsame⟩ := run_rejected hreports
      have hafter : (s.perform (.run steps source)).2 = { s with nextId } := hsame
      rw [hafter]
      simp [programs, hprogram]
    · obtain ⟨last, hreads⟩ := program?_eq_some_iff.mp hprogram
      simp only [programs, hprogram, Option.toList_some, List.append_nil, List.mem_singleton,
        exists_eq_left]
      exact h.hops_run hreads steps id hops
  · have hsame : (s.perform (.evaluate steps source)).2.machine.hops = s.machine.hops :=
      h.hops_evaluate steps source
    simp [hsame, programs]

theorem programs_cons (s : Session) (request : Request) (rest : List Request) :
    s.programs (request :: rest) = s.programs [request] ++ (s.perform request).2.programs rest := by
  rcases request with ⟨steps, source⟩ | ⟨steps, source⟩
  · simp [programs]
  · simp [programs]

theorem getElem?_hops_afterAll (h : ∃ kept, s.Sound kept) (history : List Request) (id hops : Nat) :
    (s.afterAll history).machine.hops[id]? = some hops
      ↔ s.machine.hops[id]? = some hops ∨ ∃ program ∈ s.programs history, program.Retains id hops := by
  induction history generalizing s with
  | nil => simp [afterAll, programs]
  | cons request rest ih =>
    obtain ⟨kept, hsound⟩ := h
    have hnext := (Sound.perform ⟨kept, hsound⟩ request).1
    have hrest := ih hnext
    rw [hsound.hops_perform request, or_assoc] at hrest
    rw [programs_cons]
    simp only [List.mem_append, or_and_right, exists_or]
    exact hrest

end Histories

/-- **The table holds exactly what can still run.**  After any history its entries are the hop
    counts of the references inside functions of the programs so far.  The hop counts of a further
    program take the place of no entry, and a single expression leaves the table as it is. -/
theorem hops_afterAll (outside : Outside) (history : List Request) :
    let s := (start outside).afterAll history
    (∀ id hops : Nat, s.machine.hops[id]? = some hops
        ↔ ∃ program ∈ (start outside).programs history, program.Retains id hops)
      ∧ (∀ source program, s.program? source = some program →
          ∀ id ∈ (Program.bindings program).hops, id ∉ s.machine.hops)
      ∧ ∀ steps source, (s.evaluate steps source).2.machine.hops = s.machine.hops := by
  intro s
  have hstart : ∃ kept, (start outside).Sound kept := ⟨_, sound_start outside⟩
  obtain ⟨kept, hsound⟩ : ∃ kept, s.Sound kept :=
    of_afterAll (P := fun s => ∃ kept, s.Sound kept)
      (fun _ request hs => (Sound.perform hs request).1) history hstart
  have hempty : ∀ id : Nat, (start outside).machine.hops[id]? = none :=
    fun id => (sound_start outside).unused id (Nat.zero_le id)
  refine ⟨fun id hops => ?_, fun source program hprogram id hid => ?_, hsound.hops_evaluate⟩
  · rw [getElem?_hops_afterAll hstart, hempty]
    simp
  · obtain ⟨last, hreads⟩ := program?_eq_some_iff.mp hprogram
    exact hsound.disjoint hreads hid

/-- A source that fails in the middle, one that is rejected, and one that comes next. -/
theorem hops_afterAll_failure :
    let history := [.run 20 "{ var a; fun f() { return a; } a(); }", .run 20 "{ var b = b; }"]
    let s := (start .unlimited).afterAll history
    s.machine.hops[0]? = some 1
      ∧ ∃ program, s.program? "fun g(c) { return c; }" = some program
        ∧ ∀ id ∈ (Program.bindings program).hops, id ∉ s.machine.hops := by
  intro history s
  obtain ⟨htable, hdisjoint, -⟩ := hops_afterAll .unlimited history
  obtain ⟨program, hprogram⟩ : ∃ program, s.program? "fun g(c) { return c; }" = some program :=
    Option.isSome_iff_exists.mp (by decide +kernel)
  exact ⟨(htable 0 1).mpr (by decide +kernel), program, hprogram, hdisjoint _ _ hprogram⟩

end Session

end Treewalk
