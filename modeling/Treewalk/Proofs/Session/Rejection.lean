import Mathlib.Data.List.Nodup
import Treewalk.Proofs.Session.Acceptance
import Treewalk.Proofs.Simulation.Renumbering

/-!
# Rejected sources

**A source that is rejected leaves nothing behind but used-up numbers, and those cannot be seen.**
Without the source, everything behind it has lower numbers.  So the two histories are compared
with the numbers of the rejected source as a gap: what was there before keeps its numbers, and
what comes later has them moved on by the same amount on one side.
-/

namespace Treewalk

/-! ### What keeps its numbers -/

section Fixed

variable {ι : Nat → Nat} {table : HopTable} {kept : Nat → Prop} {s : Store}

theorem Closure.renumber_of_placed (hfixed : ∀ id, kept id → ι id = id) {f : Closure}
    {scopes : List Scope} (h : f.declaration.Placed table kept scopes) : f.renumber ι = f := by
  rcases f with ⟨declaration, frame, isInitializer⟩
  rw [Closure.renumber, declaration.move_of_fixed fun id hid => hfixed id (h.keeps id hid)]

theorem ClassLayer.renumber_of_sound (hfixed : ∀ id, kept id → ι id = id) {layer : ClassLayer}
    (h : ∀ (name : String) (method : Closure), layer.methods[name]? = some method →
      method.SoundMethod table kept s) : layer.renumber ι = layer := by
  rcases layer with ⟨identity, name, methods⟩
  refine congrArg (ClassLayer.mk identity name) (Std.ExtTreeMap.ext_getElem? fun name => ?_)
  rw [Std.ExtTreeMap.getElem?_map]
  rcases hfound : methods[name]? with _ | method
  · rfl
  · obtain ⟨scopes, -, hplaced⟩ := h name method hfound
    exact congrArg some (method.renumber_of_placed hfixed hplaced)

theorem ClassValue.renumber_of_sound (hfixed : ∀ id, kept id → ι id = id) {c : ClassValue}
    (h : c.Sound table kept s) : c.renumber ι = c := by
  rcases c with ⟨own, ancestors⟩
  have hown := ClassLayer.renumber_of_sound hfixed (h own List.mem_cons_self)
  have hancestors : ancestors.map (ClassLayer.renumber ι) = ancestors.map id :=
    List.map_congr_left fun layer hlayer =>
      ClassLayer.renumber_of_sound hfixed (h layer (List.mem_cons_of_mem _ hlayer))
  rw [List.map_id] at hancestors
  rw [ClassValue.renumber, hown, hancestors]

/-- A value keeps its numbers if its functions have only kept ones. -/
theorem Value.renumber_of_sound (hfixed : ∀ id, kept id → ι id = id) {value : Value}
    (h : value.Sound table kept s) : value.renumber ι = value := by
  cases value with
  | function identity closure =>
    obtain ⟨scopes, -, hplaced, -⟩ := h
    exact congrArg (Value.function identity) (closure.renumber_of_placed hfixed hplaced)
  | «class» c => exact congrArg Value.class (ClassValue.renumber_of_sound hfixed h)
  | «instance» o =>
    have hclass : o.ofClass.renumber ι = o.ofClass := ClassValue.renumber_of_sound hfixed h
    rw [Value.renumber, Instance.renumber, hclass]
  | _ => rfl

end Fixed

theorem Bound.renumber_of_sound {ι : Nat → Nat} {table : HopTable} {kept : Nat → Prop} {s : Store}
    (hfixed : ∀ id, kept id → ι id = id) {bound : Bound}
    (h : ∀ (name : String) (value : Value), bound[name]? = some value → value.Sound table kept s) :
    bound.map (fun _ value => value.renumber ι) = bound := by
  refine Std.ExtTreeMap.ext_getElem? fun name => ?_
  rw [Std.ExtTreeMap.getElem?_map]
  rcases hfound : bound[name]? with _ | value
  · rfl
  · exact congrArg some (Value.renumber_of_sound hfixed (h name value hfound))

/-- A store keeps its numbers if all functions in it have only kept ones. -/
theorem Machine.Sound.renumber_store {ι : Nat → Nat} {table : HopTable} {kept : Nat → Prop}
    {m : Machine} (h : m.Sound table kept) (hfixed : ∀ id, kept id → ι id = id) :
    m.store.renumber ι = m.store := by
  have hframes : m.store.frames.map (Frame.renumber ι) = m.store.frames := by
    refine Array.ext_getElem? fun i => ?_
    rw [Array.getElem?_map]
    rcases hframe : m.store.frames[i]? with _ | ⟨enclosing, bound⟩
    · rfl
    · refine congrArg (fun bound => some (Frame.mk enclosing bound))
        (Bound.renumber_of_sound hfixed fun name value hvalue => h.bound ⟨i⟩ name value ?_)
      rw [Store.local?, hframe]
      exact hvalue
  -- Which class an instance has does not matter for its fields.
  let nobody : ClassValue := ⟨⟨0, "", ∅⟩, []⟩
  have hfields : m.store.fields.map (fun own => own.map fun _ value => value.renumber ι)
      = m.store.fields := by
    refine Array.ext_getElem? fun i => ?_
    rw [Array.getElem?_map]
    rcases hown : m.store.fields[i]? with _ | own
    · rfl
    · refine congrArg some
        (Bound.renumber_of_sound hfixed fun name value hvalue => h.fields ⟨i, nobody⟩ name value ?_)
      rw [Store.field?, hown]
      exact hvalue
  rw [Store.renumber, hframes, hfields]

/-! ### Tables and bindings -/

section Tables

variable {ι : Nat → Nat} {table table' new new' : HopTable}

/-- Other numbers are as many numbers. -/
theorem HopTable.Renumbered.size_eq (hι : Function.Injective ι)
    (h : HopTable.Renumbered ι table table') : table'.size = table.size := by
  have hmem : ∀ id, id ∈ table'.keys ↔ id ∈ table.keys.map ι := by
    intro id
    rw [Std.ExtTreeMap.mem_keys, ← Std.ExtTreeMap.isSome_getElem?_iff_mem, List.mem_map]
    constructor
    · intro hsome
      by_cases hknown : ∃ known, ι known = id
      · obtain ⟨known, rfl⟩ := hknown
        rw [h.hops] at hsome
        exact ⟨known, Std.ExtTreeMap.mem_keys.mpr
          (Std.ExtTreeMap.isSome_getElem?_iff_mem.mp hsome), rfl⟩
      · rw [h.outside id fun known heq => hknown ⟨known, heq⟩] at hsome
        cases hsome
    · rintro ⟨known, hknown, rfl⟩
      rw [h.hops]
      exact Std.ExtTreeMap.isSome_getElem?_iff_mem.mpr (Std.ExtTreeMap.mem_keys.mp hknown)
  have hperm : table'.keys.Perm (table.keys.map ι) :=
    (List.perm_ext_iff_of_nodup Std.ExtTreeMap.nodup_keys
      (Std.ExtTreeMap.nodup_keys.map hι)).mpr hmem
  rw [← Std.ExtTreeMap.length_keys, ← Std.ExtTreeMap.length_keys, hperm.length_eq,
    List.length_map]

theorem HopTable.Renumbered.union (h : HopTable.Renumbered ι table table')
    (hnew : HopTable.Renumbered ι new new') :
    HopTable.Renumbered ι (table ∪ new) (table' ∪ new') where
  hops id := by rw [getElem?_learn, getElem?_learn, h.hops, hnew.hops]
  outside id hid := by rw [getElem?_learn, h.outside id hid, hnew.outside id hid]; rfl

theorem HopTable.Renumbered.forget (hι : Function.Injective ι)
    (h : HopTable.Renumbered ι table table') (ids : List Nat) :
    HopTable.Renumbered ι (ids.foldl (fun hops id => hops.erase id) table)
      ((ids.map ι).foldl (fun hops id => hops.erase id) table') where
  hops id := by
    have hmem : ι id ∈ ids.map ι ↔ id ∈ ids := List.mem_map_of_injective hι
    simp only [getElem?_forget, hmem, h.hops]
  outside id hid := by
    rw [getElem?_forget, h.outside id hid, ite_self]

end Tables

/-- The findings of a walk over a tree with other numbers. -/
structure Bindings.Renumbered (ι : Nat → Nat) (b b' : Bindings) : Prop where
  hops : HopTable.Renumbered ι b.hops b'.hops
  topLevel : b'.topLevel = b.topLevel.map ι
  errors : b'.errors = b.errors

section Binding

variable {ι : Nat → Nat}

theorem Bindings.Displaced.renumbered {b b' : Bindings} {around : Surroundings} {ids : List Nat}
    (h : Bindings.Displaced (.ofIds ι) .empty b b')
    (hextends : Bindings.empty.Extends around (ids.map ι) b') : b.Renumbered ι b' where
  hops := by
    have hempty : ∀ id : Nat, Bindings.empty.hops[id]? = none := fun id => by
      simp [Bindings.empty]
    refine ⟨fun id => ?_, fun id hid => ?_⟩
    · rw [h.hops, hempty, Option.or_none]
    · rw [hextends.hops id fun hmem => ?_, hempty]
      obtain ⟨known, -, heq⟩ := List.mem_map.mp hmem
      exact hid known heq
  topLevel := h.topLevel
  errors := by
    have hsame : BindingError.move (.ofIds ι) = id := rfl
    have herrors := h.errors
    rwa [hsame, List.map_id] at herrors

theorem Program.bindings_renumbered (hι : Function.Injective ι) (program : Program) :
    (Program.bindings program).Renumbered ι
      (Program.bindings (moveStatements (.ofIds ι) program)) := by
  have hextends := extends_bindStatements .topLevel (moveStatements (.ofIds ι) program) .empty
  rw [statementReferences_move] at hextends
  exact (displaced_bindStatements hι .topLevel program
    (Bindings.displaced_empty _ rfl)).renumbered hextends

theorem Expr.bindings_renumbered (hι : Function.Injective ι) (e : Expr) :
    e.bindings.Renumbered ι (e.move (.ofIds ι)).bindings := by
  have hextends := (e.move (.ofIds ι)).extends_bindNames .topLevel .empty
  rw [Expr.references_move] at hextends
  exact (e.displaced_bindNames hι .topLevel (Bindings.displaced_empty _ rfl)).renumbered hextends

theorem Machine.Renumbered.learn {m m' : Machine} (h : m.Renumbered ι m') {table table' : HopTable}
    (htable : HopTable.Renumbered ι table table') :
    (m.learn table).Renumbered ι (m'.learn table') := by
  obtain ⟨h⟩ := h
  exact ⟨h.union htable⟩

theorem Machine.Renumbered.forget (hι : Function.Injective ι) {m m' : Machine}
    (h : m.Renumbered ι m') (ids : List Nat) :
    (m.forget ids).Renumbered ι (m'.forget (ids.map ι)) := by
  obtain ⟨h⟩ := h
  exact ⟨h.forget hι ids⟩

end Binding

/-! ### Reports -/

/-- A parser that stops has an error. -/
theorem Cursor.errors_of_run_none {α : Type} {c : Cursor} {p : Parser α} (h : (c.run p).1 = none) :
    (c.run p).2.1 ≠ [] := by
  unfold Cursor.run at h ⊢
  split at h
  · cases h
  · exact List.concat_ne_nil _ _

theorem Diagnostic.sorted_ne_nil {reports : List Diagnostic} (h : reports ≠ []) :
    sorted reports ≠ [] := by
  intro hsorted
  have hlength : (sorted reports).length = reports.length := List.length_mergeSort reports
  rw [hsorted, List.length_nil] at hlength
  exact h (List.length_eq_zero_iff.mp hlength.symm)

/-! ### Sessions -/

namespace Session

/-- The second session is the first with a range of numbers left out. -/
structure Behind (first width : Nat) (s s' : Session) : Prop where
  le : first ≤ s.nextId
  nextId : s'.nextId = s.nextId + width
  machine : s.machine.Renumbered (withGap first width) s'.machine

section Steps

variable {first width : Nat} {s s' : Session}

theorem Behind.output_eq (h : s.Behind first width s') : s'.output = s.output :=
  congrArg Sink.written h.machine.sink_eq

theorem Behind.resolvedCount_eq (h : s.Behind first width s') :
    s'.resolvedCount = s.resolvedCount :=
  h.machine.table.size_eq (withGap_injective first width)

/-- Sessions that have read the same source. -/
theorem Behind.withNextId (h : s.Behind first width s') {nextId nextId' : Nat}
    (hle : first ≤ nextId) (hnext : nextId' = nextId + width) :
    Behind first width { s with nextId } { s' with nextId := nextId' } :=
  ⟨hle, hnext, h.machine⟩

variable {α β : Type} {u : α → β} {bindings bindings' : Bindings} {body : Run α} {body' : Run β}

theorem Behind.runWith (h : s.Behind first width s')
    (hbindings : bindings.Renumbered (withGap first width) bindings')
    (hbody : Run.Renumbers (withGap first width) u body body') :
    (s'.runWith bindings' body').1 = (s.runWith bindings body).1.map u
      ∧ (s.runWith bindings body).2.Behind first width (s'.runWith bindings' body').2 := by
  have hrun := hbody _ _ (h.machine.learn hbindings.hops)
  have hforget := fun {after after' : Machine} (hafter : after.Renumbered _ after') =>
    hafter.forget (withGap_injective first width) bindings.topLevel
  unfold Session.runWith
  rw [hbindings.topLevel]
  dsimp only
  generalize body (s.machine.learn bindings.hops) = outcome at hrun ⊢
  generalize body' (s'.machine.learn bindings'.hops) = outcome' at hrun ⊢
  cases hrun with
  | ok hafter => exact ⟨rfl, h.le, h.nextId, hforget hafter⟩
  | error hafter => exact ⟨rfl, h.le, h.nextId, hforget hafter⟩

/-- The static checks are passed on both sides or on neither, with the same reports. -/
theorem Behind.runChecked (h : s.Behind first width s') (early : List Diagnostic)
    (hbindings : bindings.Renumbered (withGap first width) bindings')
    (hbody : Run.Renumbers (withGap first width) u body body') :
    (s'.runChecked early bindings' body').1 = (s.runChecked early bindings body).1.map u
      ∧ (s.runChecked early bindings body).2.Behind first width
        (s'.runChecked early bindings' body').2 := by
  unfold Session.runChecked
  rw [hbindings.errors]
  split
  · split
    · exact h.runWith hbindings hbody
    · exact ⟨rfl, h⟩
  · exact ⟨rfl, h⟩

theorem Behind.run (h : s.Behind first width s') (steps : Nat) (source : String) :
    (s'.run steps source).1 = (s.run steps source).1
      ∧ (s.run steps source).2.Behind first width (s'.run steps source).2 := by
  unfold Session.run
  rcases hread : (Cursor.start (tokens source) s.nextId).program with ⟨program, errors, cursor⟩
  obtain ⟨hle, cursor', hnext, hread'⟩ := Cursor.program_behind h.le width hread
  rw [h.nextId, hread']
  obtain ⟨hresult, hlater⟩ := (h.withNextId hle hnext).runChecked (earlyReports source errors)
    (Program.bindings_renumbered (withGap_injective first width) program)
    (Run.renumbers_interpret steps program)
  refine ⟨hresult.trans ?_, hlater⟩
  generalize (Session.runChecked _ _ _ _).1 = result
  rcases result with stop | result <;> rfl

theorem Behind.evaluate (h : s.Behind first width s') (steps : Nat) (source : String) :
    (s'.evaluate steps source).1
        = (s.evaluate steps source).1.map (Value.renumber (withGap first width))
      ∧ (s.evaluate steps source).2.Behind first width (s'.evaluate steps source).2 := by
  unfold Session.evaluate
  rcases hread : (Cursor.start (tokens source) s.nextId).expression with ⟨value?, errors, cursor⟩
  obtain ⟨hle, cursor', hnext, hread'⟩ := Cursor.expression_behind h.le width hread
  rw [h.nextId, hread']
  rcases value? with _ | value
  · exact ⟨rfl, h.withNextId hle hnext⟩
  · exact (h.withNextId hle hnext).runChecked _
      (value.bindings_renumbered (withGap_injective first width))
      (Run.renumbers_evaluate steps value)

/-- A source does the same in both sessions, which go on to differ in the gap alone. -/
theorem Behind.perform (h : s.Behind first width s') (request : Request) :
    (s'.perform request).1 = (s.perform request).1
      ∧ (s.perform request).2.Behind first width (s'.perform request).2 := by
  rcases request with ⟨steps, source⟩ | ⟨steps, source⟩
  · obtain ⟨hresult, hlater⟩ := h.run steps source
    exact ⟨congrArg (Except.map fun _ => none) hresult, hlater⟩
  · obtain ⟨hresult, hlater⟩ := h.evaluate steps source
    refine ⟨?_, hlater⟩
    show Except.map _ (s'.evaluate steps source).1 = Except.map _ (s.evaluate steps source).1
    rw [hresult]
    rcases (s.evaluate steps source).1 with stop | value
    · rfl
    · simp only [Except.map, Value.text_renumber]

end Steps

theorem Behind.observations_eq {first width : Nat} {s s' : Session} (h : s.Behind first width s')
    (history : List Request) : s'.observations history = s.observations history := by
  induction history generalizing s s' with
  | nil => rfl
  | cons request rest ih =>
    obtain ⟨hresult, hlater⟩ := h.perform request
    rw [observations, observations, observe, observe, hresult, hlater.output_eq,
      hlater.resolvedCount_eq, ih hlater]

/-- A session behind one that only used up numbers. -/
theorem Sound.behind_withNextId {kept : Nat → Prop} {s : Session} (h : s.Sound kept) {nextId : Nat}
    (hle : s.nextId ≤ nextId) :
    s.Behind s.nextId (nextId - s.nextId) { s with nextId } where
  le := Nat.le_refl _
  nextId := (Nat.add_sub_cancel' hle).symm
  machine := by
    have hstore := h.machine.renumber_store (ι := withGap s.nextId (nextId - s.nextId))
      fun id hid => withGap_of_lt (h.kept_lt id hid) _
    have htable : HopTable.Renumbered (withGap s.nextId (nextId - s.nextId)) s.machine.hops
        s.machine.hops := by
      refine ⟨fun id => ?_, fun id houtside => h.unused id (Nat.le_of_not_lt fun hlt => ?_)⟩
      · rcases Nat.lt_or_ge id s.nextId with hlt | hge
        · rw [withGap_of_lt hlt _]
        · rw [withGap_of_le hge _, h.unused id hge, h.unused _ (Nat.le_add_right_of_le hge)]
      · exact houtside id (withGap_of_lt hlt _)
    have hmachine := Machine.Renumbered.mk htable
    rwa [hstore] at hmachine

/-! ### Rejected sources -/

instance {α : Type} (result : Except Stop α) :
    Decidable (∃ reports, result = .error (.rejected reports)) :=
  match result with
  | .error (.rejected reports) => isTrue ⟨reports, rfl⟩
  | .error (.halted _) => isFalse nofun
  | .ok _ => isFalse nofun

section Rejected

variable {s : Session} {reports : List Diagnostic}

/-- What the static checks reject has reports, and nothing has happened. -/
theorem runChecked_rejected {α : Type} {early : List Diagnostic} {bindings : Bindings}
    {body : Run α} (h : (s.runChecked early bindings body).1 = .error (.rejected reports)) :
    reports ≠ [] ∧ (s.runChecked early bindings body).2 = s := by
  unfold Session.runChecked at h ⊢
  by_cases hearly : early.isEmpty = true
  · by_cases herrors : bindings.errors.isEmpty = true
    · simp only [hearly, herrors, if_true] at h
      exact (runWith_ne_rejected _ _ _ _ h).elim
    · simp only [hearly, herrors, if_true] at h ⊢
      cases h
      refine ⟨Diagnostic.sorted_ne_nil (mt List.map_eq_nil_iff.mp ?_), rfl⟩
      exact mt List.isEmpty_iff.mpr herrors
  · simp only [hearly] at h ⊢
    cases h
    exact ⟨Diagnostic.sorted_ne_nil (mt List.isEmpty_iff.mpr hearly), rfl⟩

theorem run_rejected {steps : Nat} {source : String}
    (h : (s.run steps source).1 = .error (.rejected reports)) :
    reports ≠ [] ∧ ∃ nextId, s.nextId ≤ nextId ∧ (s.run steps source).2 = { s with nextId } := by
  have hle := (Cursor.program_numbered (Cursor.start_lexed source s.nextId)).1
  obtain ⟨hreports, hsame⟩ := runChecked_rejected h
  exact ⟨hreports, _, hle, hsame⟩

/-- An expression that cannot be read has an error that stopped the parser. -/
theorem evaluate_rejected {steps : Nat} {source : String}
    (h : (s.evaluate steps source).1 = .error (.rejected reports)) :
    reports ≠ [] ∧ ∃ nextId, s.nextId ≤ nextId
      ∧ (s.evaluate steps source).2 = { s with nextId } := by
  have hle := (Cursor.expression_numbered (Cursor.start_lexed source s.nextId)).1
  unfold Session.evaluate at h ⊢
  rcases hread : (Cursor.start (tokens source) s.nextId).expression with ⟨value?, errors, cursor⟩
  rw [hread] at hle h
  rcases value? with _ | value
  · have herrors : errors ≠ [] := by
      have hnone := Cursor.errors_of_run_none (congrArg Prod.fst hread)
      rwa [← Cursor.expression, hread] at hnone
    cases h
    refine ⟨Diagnostic.sorted_ne_nil fun hnil => herrors ?_, cursor.nextId, hle, rfl⟩
    exact List.map_eq_nil_iff.mp (List.append_eq_nil_iff.mp hnil).2
  · obtain ⟨hreports, hsame⟩ := runChecked_rejected h
    exact ⟨hreports, _, hle, hsame⟩

theorem perform_rejected {request : Request}
    (h : (s.perform request).1 = .error (.rejected reports)) :
    reports ≠ [] ∧ ∃ nextId, s.nextId ≤ nextId ∧ (s.perform request).2 = { s with nextId } := by
  rcases request with ⟨steps, source⟩ | ⟨steps, source⟩
  · exact run_rejected (run_of_perform h)
  · exact evaluate_rejected (evaluate_of_perform h)

/-- A session that rejected a source has written nothing and shows what it would have shown
    without that source. -/
theorem Sound.unchanged_of_rejected {kept : Nat → Prop} (hs : s.Sound kept) {request : Request}
    (h : (s.perform request).1 = .error (.rejected reports)) :
    (s.observe request).output = s.output ∧ (s.observe request).resolvedCount = s.resolvedCount
      ∧ ∀ later, (s.perform request).2.observations later = s.observations later := by
  obtain ⟨-, nextId, hle, hsame⟩ := perform_rejected h
  have hbehind := hs.behind_withNextId hle
  rw [observe, hsame]
  exact ⟨rfl, rfl, hbehind.observations_eq⟩

end Rejected

/-- Leaving a rejected source out of a history leaves out what is seen of it, and changes nothing
    else.  The source itself has reports, writes nothing, and no hop counts of it are kept. -/
theorem rejected_unseen (outside : Outside) (history : List Request) (i : Nat) {seen : Observation}
    {reports : List Diagnostic} (hseen : ((start outside).observations history)[i]? = some seen)
    (hrejected : seen.result = .error (.rejected reports)) :
    (start outside).observations (history.eraseIdx i)
        = ((start outside).observations history).eraseIdx i
      ∧ reports ≠ []
      ∧ seen.output = ((start outside).afterAll (history.take i)).output
      ∧ seen.resolvedCount = ((start outside).afterAll (history.take i)).resolvedCount := by
  have hi : i < history.length := by
    have hlt := (List.getElem?_eq_some_iff.mp hseen).1
    rwa [length_observations] at hlt
  obtain ⟨before, request, after, rfl, rfl⟩ :
      ∃ before request after, history = before ++ request :: after ∧ before.length = i :=
    ⟨history.take i, history[i], history.drop (i + 1),
      by rw [List.getElem_cons_drop, List.take_append_drop],
      List.length_take_of_le (Nat.le_of_lt hi)⟩
  obtain ⟨kept, hsound⟩ := of_afterAll (P := fun s => ∃ kept, s.Sound kept)
    (fun _ request hs => (Sound.perform hs request).1) before ⟨_, sound_start outside⟩
  rw [List.take_left]
  simp only [observations_append, observations, List.eraseIdx_append_of_length_le,
    length_observations, Nat.le_refl, Nat.sub_self, List.eraseIdx_cons_zero,
    List.getElem?_append_right, List.getElem?_cons_zero] at hseen ⊢
  generalize (start outside).afterAll before = s at hsound hseen ⊢
  cases hseen
  obtain ⟨houtput, hcount, hlater⟩ := hsound.unchanged_of_rejected hrejected
  exact ⟨by rw [hlater], (perform_rejected hrejected).1, houtput, hcount⟩

/-- A name that is read in its own initializer, between a function and its call. -/
theorem rejected_unseen_initializer :
    let history := [.run 20 "fun f() { return 1; }", .run 20 "{ var a = a; }", .evaluate 20 "f()"]
    let seen := ((start .unlimited).perform (.run 20 "fun f() { return 1; }")).2.observe
      (.run 20 "{ var a = a; }")
    (∃ reports, seen.result = .error (.rejected reports) ∧ reports ≠ []) ∧
      (start .unlimited).observations (history.eraseIdx 1)
        = ((start .unlimited).observations history).eraseIdx 1 := by
  intro history seen
  obtain ⟨reports, hrejected⟩ : ∃ reports, seen.result = .error (.rejected reports) := by
    decide +kernel
  obtain ⟨hhistory, hreports, -⟩ := rejected_unseen .unlimited history 1 rfl hrejected
  exact ⟨⟨reports, hrejected, hreports⟩, hhistory⟩

end Session

end Treewalk
