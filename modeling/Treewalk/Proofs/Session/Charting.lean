import Treewalk.Proofs.Binding.Situating
import Treewalk.Proofs.Evaluation.ChartedMoments
import Treewalk.Proofs.Session.Happening
import Treewalk.Proofs.Session.Numbers
import Treewalk.Proofs.Session.Retention

/-!
# Everything happens at its place

**Whatever happens in a session, it happens at a place of one of its sources, in a frame that stands
for the scopes around this place.**  A source begins in the global frame, on the chart of everything
that the sources before it have left, and with its own hop counts in the table.  The frames that it
makes are added to the chart, and the chart is kept when the source fails half-way.  That hop counts
come and go between two sources is nothing that functions on the chart rely on.
-/

namespace Treewalk

/-- However a run ends, it leaves a machine on a larger chart. -/
theorem Run.Charts.left {α : Type} {c : Scene} {chart : Chart} {x : Run α} {m : Machine}
    {Q : Chart → α → Machine → Prop} (h : Charts c chart x m Q) :
    ∃ later, chart <+: later ∧ (Run.left x m).Charted c later := by
  unfold Charts at h
  rcases hresult : x m with ⟨a, after⟩ | ⟨halt, after⟩
  · rw [hresult] at h
    obtain ⟨later, hchart, hafter, -⟩ := h
    rw [left_of_ok hresult]
    exact ⟨later, hchart, hafter⟩
  · rw [hresult] at h
    rw [left_of_error hresult]
    exact h

namespace Session

/-! ### The programs of a history -/

section Programs

variable {s : Session}

theorem programs_append (s : Session) (before after : List Request) :
    s.programs (before ++ after) = s.programs before ++ (s.afterAll before).programs after := by
  induction before generalizing s with
  | nil => rfl
  | cons request rest ih =>
    rw [List.cons_append, programs_cons, programs_cons s request rest, ih, List.append_assoc]
    rfl

theorem programs_run {source : String} {program : Program} {last : Nat}
    (h : Reads source s.nextId program last) (steps : Nat) :
    s.programs [.run steps source] = [program] := by
  rw [programs, program?_eq_some_iff.mpr ⟨last, h⟩]
  rfl

theorem mem_programs {source : String} {program : Program} {last : Nat}
    (h : Reads source s.nextId program last) (steps : Nat) :
    program ∈ s.programs [.run steps source] := by
  rw [programs_run h]
  exact List.mem_singleton_self program

/-- The references of all programs of a history are among those that its trees have numbers for. -/
theorem references_programs_sublist (history : List Request) (s : Session) :
    ((s.programs history).flatMap statementReferences).Sublist (s.numbers history) := by
  induction history generalizing s with
  | nil => exact .slnil
  | cons request rest ih =>
    cases request with
    | run steps source =>
      rw [programs, List.flatMap_append, numbers]
      refine List.Sublist.append ?_ (ih _)
      rcases hprogram : s.program? source with _ | program
      · exact List.nil_sublist _
      · obtain ⟨last, hreads⟩ := program?_eq_some_iff.mp hprogram
        obtain ⟨cursor, hread, -⟩ := hreads.read
        rw [Option.toList_some, List.flatMap_singleton, numbersOf, hread]
    | evaluate steps source =>
      rw [programs, numbers]
      exact (ih _).trans (List.sublist_append_right _ _)

theorem mentions_sublist (programs : List Program) :
    ((programs.flatMap Program.mentions).map Mention.id).Sublist
      (programs.flatMap statementReferences) := by
  induction programs with
  | nil => exact .slnil
  | cons program rest ih =>
    rw [List.flatMap_cons, List.flatMap_cons, List.map_append]
    exact (statementMentions_sublist none program).append ih

/-- Of all that the programs of a history mention, nothing is mentioned under the same number. -/
theorem mention_unique {history : List Request} {mention other : Mention}
    (h : ∃ program ∈ s.programs history, mention ∈ program.mentions)
    (hother : ∃ program ∈ s.programs history, other ∈ program.mentions)
    (hid : mention.id = other.id) : mention = other := by
  have hnodup : (((s.programs history).flatMap Program.mentions).map Mention.id).Nodup :=
    (numbered_afterAll history s).2.nodup.sublist
      ((mentions_sublist _).trans (references_programs_sublist history s))
  exact List.inj_on_of_nodup_map hnodup (List.mem_flatMap.mpr h) (List.mem_flatMap.mpr hother) hid

/-- A `super` in a program of a history stands in a class with a superclass. -/
theorem supersDerived_of_mem {history : List Request} {program : Program}
    (h : program ∈ s.programs history) : SupersDerived program.mentions := by
  induction history generalizing s with
  | nil => cases h
  | cons request rest ih =>
    rw [programs_cons] at h
    rcases List.mem_append.mp h with hfirst | hrest
    · cases request with
      | run steps source =>
        rw [programs, programs, List.append_nil, Option.mem_toList] at hfirst
        obtain ⟨last, hreads⟩ := program?_eq_some_iff.mp hfirst
        exact Program.supersDerived hreads.bound
      | evaluate steps source => cases hfirst
    · exact ih hrest

end Programs

/-- A single expression without static errors mentions nothing but assignments outside of every
    initializer. -/
theorem ReadsExpression.mentions {source : String} {first last : Nat} {e : Expr}
    (h : ReadsExpression source first e last) {mention : Mention}
    (hmention : mention ∈ e.mentions none none) : ∃ text id, mention = .assign none text id := by
  have hstands := e.standsIn_of_mentions hmention
  cases mention with
  | assign initialized text id =>
    cases hstands
    exact ⟨text, id, rfl⟩
  | super within id =>
    have hagrees : AgreesWith .topLevel none := fun hderived => by cases hderived
    obtain ⟨declaration, hwithin, -⟩ := e.supersDerived hagrees none .empty h.bound within id hmention
    cases hstands.symm.trans hwithin

/-! ### Charts of sessions -/

/-- What is given about a history, and a table of which some hop counts are kept. -/
def scene (outside : Outside) (history : List Request) (table : HopTable) (kept : Nat → Prop) :
    Scene where
  table
  kept
  known mention := (∃ program ∈ (start outside).programs history, mention ∈ program.mentions)
    ∨ ∃ text id, mention = .assign none text id
  distinct := ∀ program ∈ (start outside).programs history, program.declaredNames.Nodup
  happened := Happens outside history

/-- The machine of a sound session is on a chart of what happens in a history. -/
def ChartedIn (outside : Outside) (history : List Request) (s : Session) : Prop :=
  ∃ kept chart, s.Sound kept ∧ s.machine.Charted (scene outside history s.machine.hops kept) chart

section Sources

variable {outside : Outside} {history : List Request} {s : Session} {kept more : Nat → Prop}
variable {chart : Chart} {bindings : Bindings} {last : Nat}

theorem charted_start : ChartedIn outside history (start outside) := by
  refine ⟨fun _ => False, [(.names [], none)], sound_start outside, ?_⟩
  refine ⟨rfl, ?_, by simp, ?_, ?_, ?_, ?_⟩
  · simp [start, Machine.initial, Store.initial]
  · intro f shape outer h
    have hmem := List.mem_of_getElem? h
    simp at hmem
  · intro f shape outer h
    have hmem := List.mem_of_getElem? h
    simp at hmem
  · intro f name value h
    rw [start] at h
    rw [Machine.local?_initial h]
    trivial
  · intro o name value h
    rw [start, Machine.field?_initial] at h
    cases h

/-- A source begins at the top level, with its own hop counts. -/
theorem at_learn (hs : s.Sound kept)
    (hm : s.machine.Charted (scene outside history s.machine.hops kept) chart)
    (hwithin : bindings.Within s.nextId last) (more : Nat → Prop) :
    (s.machine.learn bindings.hops).At
      (scene outside history (s.machine.hops ∪ bindings.hops) fun id => kept id ∨ more id) chart
      none [] [] where
  charted := hm.withTable (fun _ hid => hs.agree_learn hwithin hid) fun _ hid => Or.inl hid
  stands := by
    show StandsFor _ chart s.machine.store s.machine.current [] []
    rw [hs.current]
    exact ⟨.globals, rfl, .top⟩
  ready := allDefined_nil.readyBut none

/-- Behind a source the chart is that of the machine which its code has left. -/
theorem charted_forget (hs : s.Sound kept) (hwithin : bindings.Within s.nextId last)
    (hmore : ∀ id, more id → s.nextId ≤ id ∧ id < last ∧ id ∉ bindings.topLevel) {after : Machine}
    (hafter : after.Charted
      (scene outside history (s.machine.hops ∪ bindings.hops) fun id => kept id ∨ more id) chart) :
    (after.forget bindings.topLevel).Charted
      (scene outside history (after.forget bindings.topLevel).hops fun id => kept id ∨ more id)
      chart := by
  refine hafter.withTable (fun id hid => ?_) fun _ hid => hid
  show (s.machine.hops ∪ bindings.hops)[id]?
    = (bindings.topLevel.foldl (fun hops id => hops.erase id) after.hops)[id]?
  have hhops : after.hops = s.machine.hops ∪ bindings.hops := hafter.hops
  rw [← hhops]
  exact hs.agree_forget hwithin hmore after.hops hid

/-! ### Sources one after another -/

/-- A program begins at its place. -/
theorem Reads.charted {source : String} {program : Program}
    (hreads : Reads source s.nextId program last) (hs : s.Sound kept)
    (hm : s.machine.Charted (scene outside history s.machine.hops kept) chart)
    (hprogram : program ∈ (start outside).programs history) (steps : Nat) :
    Moment.ChartedOn
      (scene outside history (s.machine.hops ∪ (Program.bindings program).hops)
        fun id => kept id ∨ keptBy program id) chart
      ⟨.program program, steps, s.machine.learn (Program.bindings program).hops⟩ := by
  obtain ⟨-, hnumbered, hplaced⟩ := hreads.placed hs
  have hat := at_learn hs hm (Program.within_bindings hnumbered) (keptBy program)
  refine ⟨⟨hat, ?_⟩, hat.charted⟩
  exact Program.situated hreads.wellFormed hplaced
    (fun mention hmention => Or.inl ⟨program, hprogram, hmention⟩)
    fun hdistinct => hdistinct program hprogram

/-- So does a single expression. -/
theorem ReadsExpression.charted {source : String} {e : Expr}
    (hreads : ReadsExpression source s.nextId e last) (hs : s.Sound kept)
    (hm : s.machine.Charted (scene outside history s.machine.hops kept) chart) (steps : Nat) :
    Moment.ChartedOn
      (scene outside history (s.machine.hops ∪ e.bindings.hops) fun id => kept id ∨ False) chart
      ⟨.evaluate e, steps, s.machine.learn e.bindings.hops⟩ := by
  obtain ⟨cursor, hread, rfl⟩ := hreads.read
  obtain ⟨-, hnumbered, hplaced⟩ := hs.read_expression hread
  have hat := at_learn hs hm (Expr.within_bindings hnumbered) fun _ => False
  refine ⟨⟨none, [], [], hat, hplaced hreads.bound, hreads.wellFormed, ?_⟩, hat.charted⟩
  exact fun mention hmention => Or.inr (hreads.mentions hmention)

variable {request : Request}

theorem Begins.charted {root : Moment} (h : s.Begins request root)
    (hs : ChartedIn outside history s)
    (hprograms : ∀ program ∈ s.programs [request], program ∈ (start outside).programs history) :
    ∃ table kept chart, root.ChartedOn (scene outside history table kept) chart := by
  obtain ⟨kept, chart, hsound, hm⟩ := hs
  cases h with
  | run hreads steps =>
    exact ⟨_, _, _, hreads.charted hsound hm (hprograms _ (mem_programs hreads steps)) steps⟩
  | evaluate hreads steps => exact ⟨_, _, _, hreads.charted hsound hm steps⟩

/-- A source leaves the machine on a chart, whether it is run or rejected. -/
theorem charted_perform (hs : ChartedIn outside history s)
    (hprograms : ∀ program ∈ s.programs [request], program ∈ (start outside).programs history)
    (hhappened : ∀ root, s.Begins request root → Happens outside history root) :
    ChartedIn outside history (s.perform request).2 := by
  obtain ⟨kept, chart, hsound, hm⟩ := hs
  have hclosed := closed_happens outside history
  refine of_perform (fun nextId hle => ⟨kept, chart, hsound.withNextId hle, hm⟩) ?_ ?_
  · rintro steps source program last rfl hreads
    obtain ⟨hle, hnumbered, hplaced⟩ := hreads.placed hsound
    have hwithin := Program.within_bindings hnumbered
    have hkept := keptBy_within hnumbered
    have hroot := hreads.charted hsound hm (hprograms _ (mem_programs hreads steps)) steps
    have hruns := Run.charts_interpret hclosed steps hroot.task.1 hroot.task.2
      (hhappened _ (.run hreads steps))
    obtain ⟨later, -, hleft⟩ := hruns.left
    refine ⟨_, later, (hsound.runWith _ hle hwithin hkept fun m hm hfits =>
      Run.sound_interpret steps hm hfits hplaced).1, ?_⟩
    rw [machine_runWith]
    exact charted_forget hsound hwithin hkept hleft
  · rintro steps source e last rfl hreads
    obtain ⟨cursor, hread, rfl⟩ := hreads.read
    obtain ⟨hle, hnumbered, hplaced⟩ := hsound.read_expression hread
    have hwithin := Expr.within_bindings hnumbered
    have hroot := hreads.charted hsound hm steps
    obtain ⟨initialized, scopes, shapes, hat, hsituated⟩ := hroot.task
    have hruns := Run.charts_evaluate hclosed steps e hat hsituated
      (hhappened _ (.evaluate hreads steps))
    obtain ⟨later, -, hleft⟩ := hruns.left
    refine ⟨_, later, (hsound.runWith (fun _ => False) hle hwithin (fun _ h => h.elim)
      fun m hm hfits => (Run.sound_evaluate steps e hm hfits (hplaced hreads.bound)).imp
        fun _ _ _ _ => trivial).1, ?_⟩
    rw [machine_runWith]
    exact charted_forget hsound hwithin (fun _ h => h.elim) hleft

end Sources

section Histories

variable {outside : Outside} {history : List Request}

theorem programs_subset {before rest : List Request} {request : Request}
    (hhistory : history = before ++ request :: rest) (s : Session) :
    ∀ program ∈ (s.afterAll before).programs [request], program ∈ s.programs history := by
  intro program hprogram
  rw [hhistory, programs_append, programs_cons]
  exact List.mem_append_right _ (List.mem_append_left _ hprogram)

/-- Before each source of a history the machine is on a chart. -/
theorem charted_afterAll (before : List Request) : ∀ {rest : List Request}, history = before ++ rest →
    ChartedIn outside history ((start outside).afterAll before) := by
  induction before using List.reverseRecOn with
  | nil => exact fun _ => charted_start
  | append_singleton before request ih =>
    intro rest hhistory
    have hsplit : history = before ++ request :: rest := by
      rw [hhistory, List.append_assoc, List.singleton_append]
    unfold afterAll
    rw [List.foldl_append, List.foldl_cons, List.foldl_nil]
    refine charted_perform (ih hsplit) (programs_subset hsplit _) fun root hroot => ?_
    exact ⟨before, request, rest, root, hsplit, hroot, .refl⟩

/-- Everything that happens is at its place. -/
theorem Happens.charted {moment : Moment} (h : Happens outside history moment) :
    ∃ table kept chart, moment.ChartedOn (scene outside history table kept) chart := by
  obtain ⟨before, request, rest, root, hhistory, hbegins, hreaches⟩ := id h
  obtain ⟨table, kept, chart, hroot⟩ :=
    hbegins.charted (charted_afterAll before hhistory) (programs_subset hhistory _)
  have hmoment := hroot.reaches (closed_happens outside history)
    ⟨before, request, rest, root, hhistory, hbegins, .refl⟩ hreaches
  exact ⟨table, kept, hmoment⟩

end Histories

end Session

end Treewalk
