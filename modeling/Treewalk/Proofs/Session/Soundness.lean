import Treewalk.Proofs.Binding.Settling
import Treewalk.Proofs.Evaluation.SoundRuns
import Treewalk.Proofs.Session.History
import Treewalk.Proofs.Token.Words

/-!
# No session breaks an invariant

**Between two sources, every function that can still be called has its hop counts in the table,
and new sources get numbers that no function has.**  Rejected sources only use up numbers.  A
source that runs adds its own hop counts, which cannot be those of earlier code, and drops the
ones outside functions, which no function relies on.
-/

namespace Treewalk

/-! ### Tables -/

theorem getElem?_forget (hops : HopTable) (ids : List Nat) (id : Nat) :
    (ids.foldl (fun hops id => hops.erase id) hops)[id]? = if id ∈ ids then none else hops[id]? := by
  induction ids generalizing hops with
  | nil => simp
  | cons first rest ih =>
    rw [List.foldl_cons, ih, Std.ExtTreeMap.getElem?_erase]
    by_cases hrest : id ∈ rest
    · simp [hrest]
    · by_cases hfirst : first = id
      · simp [hfirst]
      · have hne : id ≠ first := fun h => hfirst h.symm
        simp [hrest, hfirst, hne]

theorem getElem?_learn (old new : HopTable) (id : Nat) :
    (old ∪ new)[id]? = (new[id]?).or old[id]? :=
  Std.ExtTreeMap.getElem?_union

namespace Session

/-- The functions that are left have kept hop counts, and numbers from the next one on are
    unused. -/
structure Sound (kept : Nat → Prop) (s : Session) : Prop where
  machine : s.machine.Sound s.machine.hops kept
  current : s.machine.current = Store.globals
  kept_lt : ∀ id, kept id → id < s.nextId
  unused : ∀ id, s.nextId ≤ id → s.machine.hops[id]? = none

theorem sound_start (outside : Outside) : (start outside).Sound fun _ => False where
  machine := by
    refine ⟨rfl, ?_, ?_, ?_⟩
    · simp [start, Machine.initial, Store.initial]
    · intro f name value h
      rw [Machine.local?_initial h]
      trivial
    · intro o name value h
      rw [start, Machine.field?_initial] at h
      cases h
  current := rfl
  kept_lt _ h := h.elim
  unused id _ := by simp [start, Machine.initial]

/-- Numbers that a rejected source used up are gone. -/
theorem Sound.withNextId {kept : Nat → Prop} {s : Session} (h : s.Sound kept) {nextId : Nat}
    (hle : s.nextId ≤ nextId) : Sound kept { s with nextId } where
  machine := h.machine
  current := h.current
  kept_lt id hid := Nat.lt_of_lt_of_le (h.kept_lt id hid) hle
  unused id hid := h.unused id (Nat.le_trans hle hid)

section Running

variable {α : Type} {kept more : Nat → Prop} {s : Session} {nextId : Nat} {bindings : Bindings}
variable {body : Run α}

/-- The hop counts of a source do not change those that were kept before. -/
theorem Sound.agree_learn (h : s.Sound kept) (hwithin : bindings.Within s.nextId nextId) {id : Nat}
    (hid : kept id) : s.machine.hops[id]? = (s.machine.hops ∪ bindings.hops)[id]? := by
  rw [getElem?_learn, hwithin.before id (h.kept_lt id hid)]
  rfl

theorem Sound.learn (h : s.Sound kept) (hwithin : bindings.Within s.nextId nextId) :
    (s.machine.learn bindings.hops).Sound (s.machine.hops ∪ bindings.hops)
      (fun id => kept id ∨ more id) :=
  h.machine.withTable (fun _ hid => h.agree_learn hwithin hid) fun _ hid => Or.inl hid

/-- Dropping the hop counts of code outside functions changes none that is kept. -/
theorem Sound.agree_forget (h : s.Sound kept) (hwithin : bindings.Within s.nextId nextId)
    (hmore : ∀ id, more id → s.nextId ≤ id ∧ id < nextId ∧ id ∉ bindings.topLevel)
    (table : HopTable) {id : Nat} (hid : kept id ∨ more id) :
    table[id]? = (bindings.topLevel.foldl (fun hops id => hops.erase id) table)[id]? := by
  rw [getElem?_forget, if_neg]
  intro htop
  rcases hid with hkept | hnew
  · have hlt := h.kept_lt id hkept
    have hge := (hwithin.topLevel id htop).1
    omega
  · exact (hmore id hnew).2.2 htop

/-- So it leaves all that is kept. -/
theorem Sound.forget (h : s.Sound kept) (hle : s.nextId ≤ nextId)
    (hwithin : bindings.Within s.nextId nextId)
    (hmore : ∀ id, more id → s.nextId ≤ id ∧ id < nextId ∧ id ∉ bindings.topLevel) {after : Machine}
    (hafter : after.Sound (s.machine.hops ∪ bindings.hops) fun id => kept id ∨ more id)
    (hcurrent : after.current = Store.globals) :
    Sound (fun id => kept id ∨ more id) ⟨after.forget bindings.topLevel, nextId⟩ where
  machine := by
    refine hafter.withTable (fun id hid => ?_) fun _ hid => hid
    rw [← hafter.hops]
    exact h.agree_forget hwithin hmore after.hops hid
  current := hcurrent
  kept_lt id hid := by
    rcases hid with hkept | hnew
    · exact Nat.lt_of_lt_of_le (h.kept_lt id hkept) hle
    · exact (hmore id hnew).2.1
  unused id hid := by
    show (bindings.topLevel.foldl (fun hops id => hops.erase id) after.hops)[id]? = none
    rw [getElem?_forget, hafter.hops, getElem?_learn, hwithin.after id hid,
      h.unused id (Nat.le_trans hle hid)]
    simp

/-- A source runs soundly if its body does with the new hop counts.  Those that are not dropped
    are kept from then on. -/
theorem Sound.runWith (more : Nat → Prop) (h : s.Sound kept) (hle : s.nextId ≤ nextId)
    (hwithin : bindings.Within s.nextId nextId)
    (hmore : ∀ id, more id → s.nextId ≤ id ∧ id < nextId ∧ id ∉ bindings.topLevel)
    (hbody : ∀ m : Machine, m.Sound (s.machine.hops ∪ bindings.hops) (fun id => kept id ∨ more id) →
      m.store.Fits m.current [] →
      Run.Keeps (sound (s.machine.hops ∪ bindings.hops) fun id => kept id ∨ more id) body m
        fun _ _ => True) :
    (Session.runWith { s with nextId } bindings body).2.Sound (fun id => kept id ∨ more id)
      ∧ ∀ breach,
        (Session.runWith { s with nextId } bindings body).1 ≠ .error (.halted (.breach breach)) := by
  have hfits : (s.machine.learn bindings.hops).store.Fits
      (s.machine.learn bindings.hops).current [] := h.current
  have hkeeps := hbody _ (h.learn hwithin) hfits
  unfold Run.Keeps at hkeeps
  unfold Session.runWith
  dsimp only
  rcases hresult : body (s.machine.learn bindings.hops) with ⟨result, after⟩ | ⟨halt, after⟩
  · rw [hresult] at hkeeps
    obtain ⟨hafter, hlater, -⟩ := hkeeps
    refine ⟨h.forget hle hwithin hmore hafter (hlater.2.trans h.current), ?_⟩
    intro breach hbreach
    cases hbreach
  · rw [hresult] at hkeeps
    obtain ⟨hafter, hlater, hpermits⟩ := hkeeps
    refine ⟨h.forget hle hwithin hmore hafter (hlater.2.trans h.current), ?_⟩
    intro breach hbreach
    cases hbreach
    exact hpermits breach rfl

/-- The same with the static checks in front. -/
theorem Sound.runChecked (more : Nat → Prop) (h : s.Sound kept) (hle : s.nextId ≤ nextId) (early : List Diagnostic)
    (hrun : bindings.errors = [] →
      (Session.runWith { s with nextId } bindings body).2.Sound (fun id => kept id ∨ more id)
      ∧ ∀ breach,
        (Session.runWith { s with nextId } bindings body).1 ≠ .error (.halted (.breach breach))) :
    (∃ later, (Session.runChecked { s with nextId } early bindings body).2.Sound later)
      ∧ ∀ breach,
        (Session.runChecked { s with nextId } early bindings body).1
          ≠ .error (.halted (.breach breach)) := by
  unfold Session.runChecked
  by_cases hearly : early.isEmpty = true
  · by_cases herrors : bindings.errors.isEmpty = true
    · obtain ⟨hsound, hbreach⟩ := hrun (List.isEmpty_iff.mp herrors)
      simp only [hearly, herrors, if_true]
      exact ⟨⟨_, hsound⟩, hbreach⟩
    · simp only [hearly, herrors, if_true]
      exact ⟨⟨kept, h.withNextId hle⟩, fun breach hbreach => by cases hbreach⟩
  · simp only [hearly]
    exact ⟨⟨kept, h.withNextId hle⟩, fun breach hbreach => by cases hbreach⟩

end Running

/-- The references of a program whose hop counts are kept when it has run. -/
def keptBy (program : Program) (id : Nat) : Prop :=
  id ∈ statementReferences program ∧ id ∉ (Program.bindings program).topLevel

section Reading

variable {kept : Nat → Prop} {s : Session} {source : String} {errors : List SyntaxError}
variable {cursor : Cursor}

/-- A program is read with numbers that nothing has had before, and is placed in the table of
    the session with its own hop counts. -/
theorem Sound.read_program (h : s.Sound kept) {program : Program}
    (hread : (Cursor.start (tokens source) s.nextId).program = (program, errors, cursor)) :
    s.nextId ≤ cursor.nextId ∧ Numbered s.nextId cursor.nextId (statementReferences program)
      ∧ ((Program.bindings program).errors = [] →
        PlacedStatements (s.machine.hops ∪ (Program.bindings program).hops)
          (fun id => kept id ∨ keptBy program id) [] program) := by
  obtain ⟨hle, hnumbered, hwell⟩ :=
    Cursor.program_numbered (Cursor.start_lexed source s.nextId)
  rw [hread] at hle hnumbered hwell
  refine ⟨hle, hnumbered, fun herrors => ?_⟩
  refine Program.placed hwell hnumbered.nodup herrors (fun id hid => ?_)
    fun id hid htop => Or.inr ⟨hid, htop⟩
  rw [getElem?_learn, h.unused id (hnumbered.ge id hid), Option.or_none]

theorem Sound.read_expression (h : s.Sound kept) {value : Expr}
    (hread : (Cursor.start (tokens source) s.nextId).expression = (some value, errors, cursor)) :
    s.nextId ≤ cursor.nextId ∧ Numbered s.nextId cursor.nextId value.references
      ∧ (value.bindings.errors = [] → value.Placed (s.machine.hops ∪ value.bindings.hops) []) := by
  obtain ⟨hle, hexpression⟩ := Cursor.expression_numbered (Cursor.start_lexed source s.nextId)
  rw [hread] at hle hexpression
  obtain ⟨hnumbered, -⟩ := hexpression value rfl
  refine ⟨hle, hnumbered, fun herrors => ?_⟩
  refine Expr.placed hnumbered.nodup herrors fun id hid => ?_
  rw [getElem?_learn, h.unused id (hnumbered.ge id hid), Option.or_none]

theorem keptBy_within {first last : Nat} {program : Program}
    (h : Numbered first last (statementReferences program)) (id : Nat) (hid : keptBy program id) :
    first ≤ id ∧ id < last ∧ id ∉ (Program.bindings program).topLevel :=
  ⟨h.ge id hid.1, h.lt id hid.1, hid.2⟩

end Reading

/-- Running a source keeps the session sound and is no breach. -/
theorem Sound.run {kept : Nat → Prop} {s : Session} (h : s.Sound kept) (steps : Nat)
    (source : String) :
    (∃ later, (s.run steps source).2.Sound later)
      ∧ ∀ breach, (s.run steps source).1 ≠ .error (.halted (.breach breach)) := by
  unfold Session.run
  rcases hread : (Cursor.start (tokens source) s.nextId).program with ⟨program, errors, cursor⟩
  obtain ⟨hle, hnumbered, hplaced⟩ := h.read_program hread
  refine Sound.runChecked (keptBy program) h hle _ fun herrors => ?_
  refine Sound.runWith _ h hle (Program.within_bindings hnumbered) (keptBy_within hnumbered) ?_
  intro m hm hfits
  exact Run.sound_interpret steps hm hfits (hplaced herrors)

/-- So does evaluating a single expression. -/
theorem Sound.evaluate {kept : Nat → Prop} {s : Session} (h : s.Sound kept) (steps : Nat)
    (source : String) :
    (∃ later, (s.evaluate steps source).2.Sound later)
      ∧ ∀ breach, (s.evaluate steps source).1 ≠ .error (.halted (.breach breach)) := by
  unfold Session.evaluate
  rcases hread : (Cursor.start (tokens source) s.nextId).expression with ⟨value?, errors, cursor⟩
  rcases value? with _ | value
  · have hle := (Cursor.expression_numbered (Cursor.start_lexed source s.nextId)).1
    rw [hread] at hle
    exact ⟨⟨kept, h.withNextId hle⟩, fun breach hbreach => by cases hbreach⟩
  · obtain ⟨hle, hnumbered, hplaced⟩ := h.read_expression hread
    refine Sound.runChecked (fun _ => False) h hle _ fun herrors => ?_
    refine Sound.runWith _ h hle (Expr.within_bindings hnumbered) (fun _ h => h.elim) ?_
    intro m hm hfits
    exact (Run.sound_evaluate steps value hm hfits (hplaced herrors)).imp fun _ _ _ _ => trivial

theorem Sound.perform {s : Session} (h : ∃ kept, s.Sound kept) (request : Request) :
    (∃ kept, (s.perform request).2.Sound kept)
      ∧ ∀ breach, (s.perform request).1 ≠ .error (.halted (.breach breach)) := by
  obtain ⟨kept, h⟩ := h
  rcases request with ⟨steps, source⟩ | ⟨steps, source⟩
  · obtain ⟨hlater, hbreach⟩ := h.run steps source
    exact ⟨hlater, fun breach hresult => hbreach breach (run_of_perform hresult)⟩
  · obtain ⟨hlater, hbreach⟩ := h.evaluate steps source
    exact ⟨hlater, fun breach hresult => hbreach breach (evaluate_of_perform hresult)⟩

/-- Whatever is asked of a session, in whatever order, nothing ends in a breach: every frame and
    binding that a hop count leads to is there.  A breach is never caught, so this holds of each
    reference that is evaluated on the way, also where steps run out later. -/
theorem never_breaches (outside : Outside) (history : List Request) {outcome : Outcome}
    (h : outcome ∈ (start outside).outcomes history) (breach : Breach) :
    outcome.result ≠ .error (.halted (.breach breach)) :=
  of_mem_outcomes (P := fun s => ∃ kept, s.Sound kept)
    (Q := fun result => ∀ breach, result ≠ .error (.halted (.breach breach)))
    (fun _ request hs => Sound.perform hs request) ⟨_, sound_start outside⟩ h breach

theorem never_breaches_counter :
    ((start .unlimited).perform (.run 100
      "fun f() { var n = 0; fun g() { n = n + 1; return n; } return g; } print f()();")).1
        ≠ .error (.halted (.breach .tooFewFrames)) :=
  never_breaches .unlimited [.run 100
    "fun f() { var n = 0; fun g() { n = n + 1; return n; } return g; } print f()();"]
    List.mem_cons_self .tooFewFrames

end Session

end Treewalk
