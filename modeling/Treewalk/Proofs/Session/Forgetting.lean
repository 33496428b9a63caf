import Treewalk.Proofs.Session.Soundness
import Treewalk.Proofs.Simulation.Carrying
import Treewalk.Proofs.Simulation.Runs

/-!
# Forgetting cannot be seen

**What a session does with the hop counts of code outside functions, once that code has run, makes
no difference to anybody.**  Here sessions are run with any way of tidying the table up: it may
leave everything as it is, or put nonsense in the place of what is dropped.  All it must not do
is change other entries.

The session that forgets and the one that tidies in another way run in step.  Their tables agree
on what is kept, and every function that is left refers to nothing else.
-/

namespace Treewalk

open Correspondence

namespace Session

/-! ### Other ways of tidying up -/

/-- What becomes of the table when a source has run, given the numbers of its references outside
functions. -/
abbrev Tidying := List Nat → HopTable → HopTable

/-- Only entries of the given references may change. -/
def Tidying.SparesOthers (tidy : Tidying) : Prop :=
  ∀ (ids : List Nat) (table : HopTable) (id : Nat), id ∉ ids → (tidy ids table)[id]? = table[id]?

/-- Nothing is ever dropped. -/
def Tidying.never : Tidying := fun _ table => table

/-- As sessions do it. -/
def Tidying.forget : Tidying := fun ids table => ids.foldl (fun hops id => hops.erase id) table

variable {α : Type} (tidy : Tidying)

def runWithBy (s : Session) (bindings : Bindings) (body : Run α) : Except Stop α × Session :=
  match body (s.machine.learn bindings.hops) with
  | .ok result m => (.ok result, ⟨{ m with hops := tidy bindings.topLevel m.hops }, s.nextId⟩)
  | .error halt m =>
    (.error (.halted halt), ⟨{ m with hops := tidy bindings.topLevel m.hops }, s.nextId⟩)

def runCheckedBy (s : Session) (early : List Diagnostic) (bindings : Bindings) (body : Run α) :
    Except Stop α × Session :=
  if early.isEmpty then
    if bindings.errors.isEmpty then
      s.runWithBy tidy bindings body
    else
      (.error (.rejected (Diagnostic.sorted (bindings.errors.map BindingError.report))), s)
  else
    (.error (.rejected (Diagnostic.sorted early)), s)

/-- Runs a source as a program and tidies up in another way. -/
def runBy (steps : Nat) (s : Session) (source : String) : Except Stop PUnit × Session :=
  let (program, errors, cursor) := (Cursor.start (tokens source) s.nextId).program
  runCheckedBy tidy { s with nextId := cursor.nextId } (earlyReports source errors)
    (Program.bindings program) (Run.interpret steps program)

/-- Evaluates a source and tidies up in another way. -/
def evaluateBy (steps : Nat) (s : Session) (source : String) : Except Stop Value × Session :=
  let (value?, errors, cursor) := (Cursor.start (tokens source) s.nextId).expression
  let s := { s with nextId := cursor.nextId }
  match value? with
  | some value =>
    s.runCheckedBy tidy (earlyReports source errors) value.bindings (Run.evaluate steps value)
  | none => (.error (.rejected (Diagnostic.sorted (earlyReports source errors))), s)

def performBy (s : Session) : Request → Except Stop (Option String) × Session
  | .run steps source =>
    match s.runBy tidy steps source with
    | (result, s) => (result.map fun _ => none, s)
  | .evaluate steps source =>
    match s.evaluateBy tidy steps source with
    | (result, s) => (result.map fun value => some value.text, s)

/-- The outcomes of a history in a session that tidies up in another way. -/
def outcomesBy (s : Session) : List Request → List Outcome
  | [] => []
  | request :: rest =>
    ⟨(s.performBy tidy request).1, (s.performBy tidy request).2.output⟩
      :: outcomesBy (s.performBy tidy request).2 rest

/-- Forgetting is one of the ways. -/
theorem runWithBy_forget (s : Session) (bindings : Bindings) (body : Run α) :
    s.runWithBy .forget bindings body = s.runWith bindings body := by
  rcases s with ⟨machine, nextId⟩
  simp only [runWithBy, runWith]
  rcases body (machine.learn bindings.hops) with ⟨result, m⟩ | ⟨halt, m⟩ <;> rfl

theorem runCheckedBy_forget (s : Session) (early : List Diagnostic) (bindings : Bindings)
    (body : Run α) :
    s.runCheckedBy .forget early bindings body = s.runChecked early bindings body := by
  unfold runCheckedBy runChecked
  rw [runWithBy_forget]

theorem perform_eq_performBy (s : Session) (request : Request) :
    s.performBy .forget request = s.perform request := by
  rcases request with ⟨steps, source⟩ | ⟨steps, source⟩
  · simp only [perform, performBy, run, runBy, runCheckedBy_forget]
  · have hevaluate : s.evaluateBy .forget steps source = s.evaluate steps source := by
      unfold Session.evaluate evaluateBy
      rcases (Cursor.start (tokens source) s.nextId).expression with ⟨value?, errors, cursor⟩
      rcases value? with _ | value
      · rfl
      · exact runCheckedBy_forget _ _ _ _
    rw [performBy, perform, hevaluate]

/-! ### Two sessions in step -/

/-- Nothing differs but the tables. -/
abbrev apart (left right : HopTable) (kept : Nat → Prop) : Correspondence :=
  plain left right kept fun line line' => line' = line

theorem reflexive_apart (left right : HopTable) (kept : Nat → Prop) :
    (apart left right kept).Reflexive :=
  ⟨fun _ => rfl, fun _ => trivial⟩

theorem halt_eq_of_like {left right : HopTable} {kept : Nat → Prop} {halt halt' : Halt}
    (h : HaltLike (apart left right kept) halt halt') : halt' = halt := by
  cases h with
  | fault hπ hsite _ =>
    rename_i site site' cause π _
    cases hπ
    have htext := hsite.text
    have hline := hsite.line
    cases site
    cases site'
    cases htext
    cases hline
    rfl
  | unboundAt hπ =>
    cases hπ
    rfl
  | _ => rfl

/-- The second session differs from the first in entries of its table that no function refers
to, and numbers from the next one on are unused in both. -/
structure InStep (kept : Nat → Prop) (w : World) (s s' : Session) : Prop where
  sound : s.Sound kept
  nextId : s'.nextId = s.nextId
  like : MachineLike (apart s.machine.hops s'.machine.hops kept) w s.machine s'.machine
  agree : ∀ id, kept id → s'.machine.hops[id]? = s.machine.hops[id]?
  unused : ∀ id, s.nextId ≤ id → s'.machine.hops[id]? = none

theorem InStep.withNextId {kept : Nat → Prop} {w : World} {s s' : Session} (h : InStep kept w s s')
    {nextId : Nat} (hle : s.nextId ≤ nextId) :
    InStep kept w { s with nextId } { s' with nextId } where
  sound := h.sound.withNextId hle
  nextId := rfl
  like := h.like
  agree := h.agree
  unused id hid := h.unused id (Nat.le_trans hle hid)

section Running

variable {kept more : Nat → Prop} {w : World} {s s' : Session} {nextId : Nat} {bindings : Bindings}
variable {body : Run α}

/-- Both sessions learn the same. -/
theorem InStep.learn (h : InStep kept w s s') (hwithin : bindings.Within s.nextId nextId) :
    MachineLike (apart (s.machine.hops ∪ bindings.hops) (s'.machine.hops ∪ bindings.hops)
      fun id => kept id ∨ more id) w (s.machine.learn bindings.hops)
      (s'.machine.learn bindings.hops) := by
  have hold : ∀ (table : HopTable) (id : Nat), kept id →
      (table ∪ bindings.hops)[id]? = table[id]? := by
    intro table id hid
    rw [getElem?_learn, hwithin.before id (h.sound.kept_lt id hid), Option.none_or]
  exact h.like.retable (carries_plain (fun _ => Or.inl) (hold _) (hold _))

theorem InStep.agree_learn (h : InStep kept w s s') {id : Nat} (hid : s.nextId ≤ id) :
    (s.machine.hops ∪ bindings.hops)[id]? = (s'.machine.hops ∪ bindings.hops)[id]? := by
  rw [getElem?_learn, getElem?_learn, h.sound.unused id hid, h.unused id hid]

/-- After a run, one session forgets and the other tidies up. -/
theorem InStep.tidied (h : InStep kept w s s') (htidy : tidy.SparesOthers)
    (hwithin : bindings.Within s.nextId nextId) (hle : s.nextId ≤ nextId)
    (hmore : ∀ id, more id → s.nextId ≤ id ∧ id < nextId ∧ id ∉ bindings.topLevel)
    {later : World} {after after' : Machine}
    (hafter : MachineLike (apart (s.machine.hops ∪ bindings.hops) (s'.machine.hops ∪ bindings.hops)
      fun id => kept id ∨ more id) later after after')
    (hsound : Sound (fun id => kept id ∨ more id) ⟨after.forget bindings.topLevel, nextId⟩) :
    InStep (fun id => kept id ∨ more id) later ⟨after.forget bindings.topLevel, nextId⟩
      ⟨{ after' with hops := tidy bindings.topLevel after'.hops }, nextId⟩ := by
  have hspared : ∀ id, kept id ∨ more id → id ∉ bindings.topLevel := by
    rintro id (hid | hid) htop
    · exact absurd (hwithin.topLevel id htop).1 (Nat.not_le.mpr (h.sound.kept_lt id hid))
    · exact (hmore id hid).2.2 htop
  have hforget : ∀ id, kept id ∨ more id → (after.forget bindings.topLevel).hops[id]?
      = (s.machine.hops ∪ bindings.hops)[id]? := by
    intro id hid
    show (bindings.topLevel.foldl (fun hops id => hops.erase id) after.hops)[id]? = _
    rw [getElem?_forget, if_neg (hspared id hid), hafter.hops]
    rfl
  have htidied : ∀ id, id ∉ bindings.topLevel → (tidy bindings.topLevel after'.hops)[id]?
      = (s'.machine.hops ∪ bindings.hops)[id]? := by
    intro id hid
    rw [htidy _ _ id hid, hafter.hops']
    rfl
  refine ⟨hsound, rfl, ?_, fun id hid => ?_, fun id hid => ?_⟩
  · exact hafter.retable (carries_plain (fun _ hid => hid) hforget
      fun id hid => htidied id (hspared id hid))
  · rw [htidied id (hspared id hid), hforget id hid, getElem?_learn, getElem?_learn]
    rcases hid with hkept | hnew
    · rw [h.agree id hkept]
    · rw [h.sound.unused id (hmore id hnew).1, h.unused id (hmore id hnew).1]
  · have hnot : id ∉ bindings.topLevel := fun htop =>
      absurd (hwithin.topLevel id htop).2 (Nat.not_lt.mpr hid)
    rw [htidied id hnot, getElem?_learn, hwithin.after id hid, h.unused id (Nat.le_trans hle hid)]
    rfl

/-- The caller is given the same by both sessions, and they stay in step. -/
def Agree (shown : α → Option String) (p p' : Except Stop α × Session) : Prop :=
  p'.1.map shown = p.1.map shown ∧ ∃ kept w, InStep kept w p.2 p'.2

theorem InStep.runWith {shown : α → Option String} (more : Nat → Prop) (h : InStep kept w s s')
    (htidy : tidy.SparesOthers) (hle : s.nextId ≤ nextId)
    (hwithin : bindings.Within s.nextId nextId)
    (hmore : ∀ id, more id → s.nextId ≤ id ∧ id < nextId ∧ id ∉ bindings.topLevel)
    (hsound : (Session.runWith { s with nextId } bindings body).2.Sound fun id => kept id ∨ more id)
    (hbody : Run.Matches (apart (s.machine.hops ∪ bindings.hops) (s'.machine.hops ∪ bindings.hops)
      fun id => kept id ∨ more id) w body body (s.machine.learn bindings.hops)
      (s'.machine.learn bindings.hops) fun _ a a' => shown a' = shown a) :
    Agree shown (Session.runWith { s with nextId } bindings body)
      (runWithBy tidy { s' with nextId } bindings body) := by
  unfold Run.Matches at hbody
  unfold Session.runWith at hsound ⊢
  unfold runWithBy
  dsimp only at hsound ⊢
  rcases hrun : body (s.machine.learn bindings.hops) with ⟨a, after⟩ | ⟨halt, after⟩ <;>
    rcases hrun' : body (s'.machine.learn bindings.hops) with ⟨a', after'⟩ | ⟨halt', after'⟩ <;>
    rw [hrun, hrun'] at hbody <;> rw [hrun] at hsound
  · obtain ⟨later, hfollows, hshown⟩ := hbody
    dsimp only
    refine ⟨congrArg Except.ok hshown, fun id => kept id ∨ more id, later, ?_⟩
    exact h.tidied tidy htidy hwithin hle hmore hfollows.like hsound
  · exact hbody.elim
  · exact hbody.elim
  · obtain ⟨later, hfollows, hhalt⟩ := hbody
    dsimp only
    refine ⟨by rw [halt_eq_of_like hhalt], fun id => kept id ∨ more id, later, ?_⟩
    exact h.tidied tidy htidy hwithin hle hmore hfollows.like hsound

theorem InStep.runChecked {shown : α → Option String} (h : InStep kept w s s')
    (hle : s.nextId ≤ nextId) (early : List Diagnostic)
    (hrun : bindings.errors = [] → Agree shown (Session.runWith { s with nextId } bindings body)
      (runWithBy tidy { s' with nextId } bindings body)) :
    Agree shown (Session.runChecked { s with nextId } early bindings body)
      (runCheckedBy tidy { s' with nextId } early bindings body) := by
  unfold Session.runChecked runCheckedBy
  by_cases hearly : early.isEmpty = true
  · by_cases herrors : bindings.errors.isEmpty = true
    · simp only [hearly, herrors, if_true]
      exact hrun (List.isEmpty_iff.mp herrors)
    · simp only [hearly, herrors, if_true]
      exact ⟨rfl, kept, w, h.withNextId hle⟩
  · simp only [hearly]
    exact ⟨rfl, kept, w, h.withNextId hle⟩

end Running

section Requests

variable {kept : Nat → Prop} {w : World} {s s' : Session}

theorem InStep.chain (h : InStep kept w s s') : w.Chain s.machine.current [] := by
  rw [h.sound.current]
  exact .globals

theorem InStep.run (h : InStep kept w s s') (htidy : tidy.SparesOthers) (steps : Nat)
    (source : String) :
    Agree (fun _ => none) (s.run steps source) (s'.runBy tidy steps source) := by
  unfold Session.run runBy
  rw [h.nextId]
  rcases hread : (Cursor.start (tokens source) s.nextId).program with ⟨program, errors, cursor⟩
  obtain ⟨hle, hnumbered, hplaced⟩ := h.sound.read_program hread
  refine h.runChecked tidy hle _ fun herrors => ?_
  have hwithin := Program.within_bindings hnumbered
  have hmore := fun id => keptBy_within hnumbered id
  have hsound := h.sound.runWith (keptBy program) hle hwithin hmore fun m hm hfits =>
    Run.sound_interpret steps hm hfits (hplaced herrors)
  refine h.runWith tidy (keptBy program) htidy hle hwithin hmore hsound.1 ?_
  refine (Run.matches_interpret steps (h.learn hwithin) h.chain ?_).imp fun _ _ _ _ _ => rfl
  exact statementsLike_refl (reflexive_apart _ _ _) (fun _ hid => hid) unchanged_nil program
    (hplaced herrors) fun id hid => h.agree_learn (hnumbered.ge id hid)

theorem InStep.evaluate (h : InStep kept w s s') (htidy : tidy.SparesOthers) (steps : Nat)
    (source : String) :
    Agree (fun value => some value.text) (s.evaluate steps source)
      (s'.evaluateBy tidy steps source) := by
  unfold Session.evaluate evaluateBy
  rw [h.nextId]
  rcases hread : (Cursor.start (tokens source) s.nextId).expression with ⟨value?, errors, cursor⟩
  rcases value? with _ | value
  · have hle := (Cursor.expression_numbered (Cursor.start_lexed source s.nextId)).1
    rw [hread] at hle
    exact ⟨rfl, kept, w, h.withNextId hle⟩
  · obtain ⟨hle, hnumbered, hplaced⟩ := h.sound.read_expression hread
    refine h.runChecked tidy hle _ fun herrors => ?_
    have hwithin := Expr.within_bindings hnumbered
    have hsound := h.sound.runWith (fun _ => False) hle hwithin (fun _ hid => hid.elim)
      fun m hm hfits =>
        (Run.sound_evaluate steps value hm hfits (hplaced herrors)).imp fun _ _ _ _ => trivial
    refine h.runWith tidy _ htidy hle hwithin (fun _ hid => hid.elim) hsound.1 ?_
    have hlike := exprLike_refl (reflexive_apart (s.machine.hops ∪ value.bindings.hops)
      (s'.machine.hops ∪ value.bindings.hops) fun id => kept id ∨ False) unchanged_nil value
      fun id hid => h.agree_learn (hnumbered.ge id hid)
    refine (Run.matches_evaluate steps (h.learn hwithin) h.chain hlike).imp ?_
    intro _ _ _ _ hvalue
    rw [text_like hvalue]

theorem agree_perform (hs : ∃ kept w, InStep kept w s s') (htidy : tidy.SparesOthers)
    (request : Request) : (s'.performBy tidy request).1 = (s.perform request).1
      ∧ ∃ kept w, InStep kept w (s.perform request).2 (s'.performBy tidy request).2 := by
  obtain ⟨kept, w, h⟩ := hs
  rcases request with ⟨steps, source⟩ | ⟨steps, source⟩
  · exact h.run tidy htidy steps source
  · exact h.evaluate tidy htidy steps source

theorem inStep_start (outside : Outside) :
    InStep (fun _ => False) [(.same, none)] (start outside) (start outside) where
  sound := sound_start outside
  nextId := rfl
  like := machineLike_initial _ outside
  agree _ hid := hid.elim
  unused id _ := by simp [start, Machine.initial]

end Requests

/-- However a session tidies up behind its sources, the outcomes are those of the session that
forgets. -/
theorem forgetting_unseen {tidy : Tidying} (htidy : tidy.SparesOthers) (outside : Outside)
    (history : List Request) :
    (start outside).outcomesBy tidy history = (start outside).outcomes history := by
  suffices h : ∀ s s', (∃ kept w, InStep kept w s s') → s'.outcomesBy tidy history = s.outcomes history
    from h _ _ ⟨_, _, inStep_start outside⟩
  induction history with
  | nil => intro s s' _; rfl
  | cons request rest ih =>
    intro s s' hs
    obtain ⟨hresult, hnext⟩ := agree_perform tidy hs htidy request
    obtain ⟨kept, w, hstep⟩ := hnext
    have houtput : (s'.performBy tidy request).2.output = (s.perform request).2.output := by
      unfold Session.output
      rw [hstep.like.sink]
    rw [outcomesBy, outcomes, hresult, houtput, ih _ _ ⟨kept, w, hstep⟩]

/-- A session that never drops anything behaves the same. -/
theorem forgetting_unseen_never :
    Tidying.never.SparesOthers ∧
      (start .unlimited).outcomesBy .never [.run 100
        "{ var a = 1; fun f() { return a; } print f(); }", .evaluate 100 "f()"]
      = (start .unlimited).outcomes [.run 100
        "{ var a = 1; fun f() { return a; } print f(); }", .evaluate 100 "f()"] :=
  ⟨fun _ _ _ _ => rfl, forgetting_unseen (fun _ _ _ _ => rfl) _ _⟩

end Session

end Treewalk
