import Treewalk.Proofs.Session.Acceptance
import Treewalk.Proofs.Session.Forgetting
import Treewalk.Proofs.Simulation.Erasing

/-!
# Sessions are incremental

**Running one source and then another comes to the same as running both as a single source.**  In
the single source the second one stands further down, and faults in it are reported there.  Faults
in functions from before are reported where they were.

To tell the two apart, the second run is followed on marked lines.  Those of older functions are
even, those of the source itself are odd, and from the reason why the marked run stops one can
read off what is reported wherever the source stands.
-/

namespace Treewalk

open Correspondence

/-! ### One program behind the other -/

namespace Run

theorem executeTop_append (steps : Nat) (first rest : List Stmt) {m after : Machine}
    (h : executeTop steps first m = .ok ⟨⟩ after) :
    executeTop steps (first ++ rest) m = executeTop steps rest after := by
  induction first generalizing m with
  | nil =>
    cases h
    rfl
  | cons s first ih =>
    rw [executeTop] at h
    obtain ⟨flow, middle, hs, hfirst⟩ := ok_of_bind_eq_ok h
    rw [List.cons_append, executeTop, bind_of_ok hs]
    exact ih hfirst

theorem interpret_append {steps : Nat} {first : List Stmt} (rest : List Stmt) {m after : Machine}
    (h : executeTop steps first m = .ok ⟨⟩ after) :
    interpret steps (first ++ rest) m = interpret steps rest after := by
  unfold interpret
  have happend := executeTop_append steps first rest h
  rcases hrest : executeTop steps rest after with ⟨_, last⟩ | ⟨halt, last⟩ <;>
    rw [hrest] at happend
  · rw [bind_of_ok hrest, bind_of_ok happend]
  · rw [bind_of_error hrest, bind_of_error happend]

/-- A program that was run to its end has left the machine as its statements have. -/
theorem executeTop_of_interpret {steps : Nat} {program : Program} {m after : Machine}
    (h : interpret steps program m = .ok ⟨⟩ after) :
    executeTop steps program m = .ok ⟨⟩ after := by
  obtain ⟨_, middle, hprogram, hflush⟩ := ok_of_bind_eq_ok h
  unfold flush at hflush
  split at hflush
  · cases hflush
  · cases hflush
    exact hprogram

end Run

/-! ### Faults further down -/

/-- The same, with a fault that many lines further down. -/
def Halt.below (n : Nat) : Halt → Halt
  | .failure (.fault ⟨site, cause⟩) => .failure (.fault ⟨⟨site.text, site.line + n⟩, cause⟩)
  | halt => halt

def Stop.below (n : Nat) : Stop → Stop
  | .rejected reports => .rejected reports
  | .halted halt => .halted (halt.below n)

namespace Session

/-- A session, up to the lines that its functions remember. -/
def withoutLines (s : Session) : Session :=
  { s with machine := s.machine.move fun _ => 0 }

/-- When the source comes after empty lines, what is reported moves down with it. -/
def MovesDown (s : Session) (steps : Nat) (source : String) : Prop :=
  ∀ k, (s.run steps (blankLines k ++ source)).1 = (s.run steps source).1.mapError (Stop.below k)

/-- When the source comes after empty lines, what is reported stays where it was. -/
def StaysThere (s : Session) (steps : Nat) (source : String) : Prop :=
  ∀ k, (s.run steps (blankLines k ++ source)).1 = (s.run steps source).1

/-! ### Marked lines -/

/-- The mark of lines from before. -/
abbrev older (line : Nat) : Nat := 2 * line

/-- The mark of lines of the source. -/
abbrev recent (line : Nat) : Nat := 2 * line + 1

/-- What a marked line stands for when the source stands `n` lines further down. -/
def unmarked (n line : Nat) : Nat := line / 2 + line % 2 * n

theorem unmarked_older (n line : Nat) : unmarked n (older line) = line := by
  have hhalf : 2 * line / 2 = line := by omega
  have hmark : 2 * line % 2 = 0 := by omega
  rw [unmarked, hhalf, hmark, Nat.zero_mul, Nat.add_zero]

theorem unmarked_recent (n line : Nat) : unmarked n (recent line) = line + n := by
  have hhalf : (2 * line + 1) / 2 = line := by omega
  have hmark : (2 * line + 1) % 2 = 1 := by omega
  rw [unmarked, hhalf, hmark, Nat.one_mul]

/-- The reason why a run stops, if it is the marked run that stops for the given one. -/
def haltAt (n : Nat) : Halt → Halt
  | .failure (.fault ⟨site, cause⟩) => .failure (.fault ⟨⟨site.text, unmarked n site.line⟩, cause⟩)
  | halt => halt

/-- What the caller is given, if the marked run ends in the given way. -/
def resultAt (n : Nat) : EStateM.Result Halt Machine PUnit → Except Stop PUnit
  | .ok _ _ => .ok ⟨⟩
  | .error halt _ => .error (.halted (haltAt n halt))

/-- The machine behind a run. -/
def machineAfter : EStateM.Result Halt Machine PUnit → Machine
  | .ok _ m => m
  | .error _ m => m

theorem haltAt_cases (halt : Halt) :
    (∀ n, haltAt n halt = (haltAt 0 halt).below n) ∨ ∀ n, haltAt n halt = haltAt 0 halt := by
  rcases halt with ⟨⟨site, cause⟩ | error⟩ | breach | _
  · rcases Nat.mod_two_eq_zero_or_one site.line with hmark | hmark
    · right
      intro n
      simp only [haltAt, unmarked, hmark, Nat.zero_mul]
    · left
      intro n
      simp only [haltAt, unmarked, hmark, Nat.one_mul, Halt.below, Nat.add_zero]
  all_goals exact Or.inr fun _ => rfl

/-- Either the reported fault stands in the source, or it does not. -/
theorem resultAt_cases (result : EStateM.Result Halt Machine PUnit) :
    (∀ n, resultAt n result = (resultAt 0 result).mapError (Stop.below n))
      ∨ ∀ n, resultAt n result = resultAt 0 result := by
  rcases result with ⟨_, m⟩ | ⟨halt, m⟩
  · exact Or.inr fun _ => rfl
  · rcases haltAt_cases halt with h | h
    · left
      intro n
      simp only [resultAt, h n, Except.mapError, Stop.below]
    · right
      intro n
      simp only [resultAt, h n]

/-- The left run is marked, and on the right the source stands `n` lines further down. -/
abbrev marked (left right : HopTable) (kept : Nat → Prop) (n : Nat) : Correspondence :=
  plain left right kept fun line line' => line' = unmarked n line

section Marking

variable {left right left' right' : HopTable} {kept kept' : Nat → Prop} {n : Nat} {w : World}

theorem haltAt_of_like {halt halt' : Halt} (h : HaltLike (marked left right kept n) halt halt') :
    halt' = haltAt n halt := by
  cases h with
  | fault hπ hsite _ =>
    rename_i site site' cause π _
    cases hπ
    have htext := hsite.text
    have hline := hsite.line
    cases site
    cases site'
    cases htext
    cases hline
    rfl
  | unboundAt hπ =>
    cases hπ
    rfl
  | _ => rfl

/-- The run of a source by itself is alike the marked one. -/
theorem matches_marked {m m' : Machine} {program : Program} {table : HopTable} (steps : Nat)
    (hm : MachineLike (apart left right kept) w m m') (hchain : w.Chain m.current [])
    (hkept : ∀ id, kept id → kept' id) (hleft : ∀ id, kept id → left'[id]? = left[id]?)
    (hright : ∀ id, kept id → right'[id]? = right[id]?)
    (hplaced : PlacedStatements table kept' [] program)
    (hsame : ∀ id ∈ statementReferences program, left'[id]? = right'[id]?) :
    Run.Matches (marked left' right' kept' n) w
      (Run.interpret steps (moveStatements (.ofLines recent) program))
      (Run.interpret steps (moveStatements (.ofLines (· + n)) program))
      { m.move older with hops := left' } { m' with hops := right' } fun _ _ _ => True := by
  have hstate : Carries (apart left right kept) (marked left' right' kept' n) older fun line => line :=
    ⟨fun line _ hline => hline.trans (unmarked_older n line).symm, fun _ hπ => hπ, fun _ h => h, hkept,
      hleft, hright⟩
  have hsource : Carries (apart left' right' kept') (marked left' right' kept' n) recent (· + n) :=
    ⟨fun line _ hline => (congrArg (· + n) hline).trans (unmarked_recent n line).symm, fun _ hπ => hπ,
      fun _ h => h, fun _ hid => hid, fun _ _ => rfl, fun _ _ => rfl⟩
  have hcarried := hm.carry hstate
  rw [Machine.move_same] at hcarried
  have hrefl := statementsLike_refl (reflexive_apart left' right' kept') (fun _ hid => hid)
    unchanged_nil program hplaced hsame
  exact Run.matches_interpret steps hcarried hchain
    (statementsLike_carry hsource program hrefl fun _ _ => ⟨rfl, rfl⟩)

/-- What becomes of a session can be read off the marked run. -/
theorem runWith_marked {x x' : Run PUnit} {m m' : Machine} {bindings : Bindings} (last : Nat)
    (h : Run.Matches (marked left' right' kept' n) w x x' m (m'.learn bindings.hops)
      fun _ _ _ => True) :
    (runWith ⟨m', last⟩ bindings x').1 = resultAt n (x m)
      ∧ (runWith ⟨m', last⟩ bindings x').2.withoutLines
        = ⟨{ (machineAfter (x m)).move fun _ => 0 with
              hops := bindings.topLevel.foldl (fun hops id => hops.erase id) right' }, last⟩ := by
  have hflat : ∀ {later : World} {after after' : Machine},
      MachineLike (marked left' right' kept' n) later after after' →
      (after'.forget bindings.topLevel).move (fun _ => 0)
        = { after.move fun _ => 0 with
            hops := bindings.topLevel.foldl (fun hops id => hops.erase id) right' } := by
    intro later after after' hlike
    have hmove := hlike.flat (isPlain_plain _ _ _ _)
    have hhops : after'.hops = right' := hlike.hops'
    have hforget : (after'.forget bindings.topLevel).move (fun _ => 0)
        = { after'.move fun _ => 0 with
            hops := bindings.topLevel.foldl (fun hops id => hops.erase id) after'.hops } := rfl
    rw [hforget, hmove, hhops]
  unfold Run.Matches at h
  unfold runWith
  dsimp only
  rcases hx : x m with ⟨_, after⟩ | ⟨halt, after⟩ <;>
    rcases hx' : x' (m'.learn bindings.hops) with ⟨_, after'⟩ | ⟨halt', after'⟩ <;>
    rw [hx, hx'] at h
  · obtain ⟨later, hfollows, -⟩ := h
    refine ⟨rfl, ?_⟩
    simp only [withoutLines, machineAfter, hflat hfollows.like]
  · exact h.elim
  · exact h.elim
  · obtain ⟨later, hfollows, hhalt⟩ := h
    refine ⟨by rw [resultAt, haltAt_of_like hhalt], ?_⟩
    simp only [withoutLines, machineAfter, hflat hfollows.like]

end Marking

/-! ### One source behind the other -/

section Joining

variable {first middle last : Nat} {program rest : Program} {source next : String}

theorem hops_joined {old : HopTable} {b b' both : Bindings} {f : Nat → Nat}
    (h : Bindings.Displaced (.ofLines f) b b' both) (hwithin : b.Within first middle)
    (hwithin' : b'.Within middle last) :
    both.topLevel.foldl (fun hops id => hops.erase id) (old ∪ both.hops)
      = b'.topLevel.foldl (fun hops id => hops.erase id)
        (b.topLevel.foldl (fun hops id => hops.erase id) (old ∪ b.hops) ∪ b'.hops) := by
  have hhops : ∀ id : Nat, both.hops[id]? = (b'.hops[id]?).or b.hops[id]? := h.hops
  have htopLevel : both.topLevel = b.topLevel ++ b'.topLevel := by
    rw [h.topLevel]
    exact congrArg _ (List.map_id _)
  apply Std.ExtTreeMap.ext_getElem?
  intro id
  rw [getElem?_forget, getElem?_forget, getElem?_learn, getElem?_learn, getElem?_forget,
    getElem?_learn, hhops, htopLevel]
  by_cases hlater : id ∈ b'.topLevel
  · rw [if_pos hlater, if_pos (List.mem_append_right _ hlater)]
  · rw [if_neg hlater]
    by_cases hearlier : id ∈ b.topLevel
    · rw [if_pos (List.mem_append_left _ hearlier), if_pos hearlier,
        hwithin'.before id (hwithin.topLevel id hearlier).2]
      rfl
    · have hneither : id ∉ b.topLevel ++ b'.topLevel := fun h =>
        (List.mem_append.mp h).elim hearlier hlater
      rw [if_neg hneither, if_neg hearlier, Option.or_assoc]

/-- A source that is read behind a sound session is placed in its table. -/
theorem Reads.placed {s : Session} {kept : Nat → Prop} (h : Reads source s.nextId program last)
    (hs : s.Sound kept) :
    s.nextId ≤ last ∧ Numbered s.nextId last (statementReferences program)
      ∧ PlacedStatements (s.machine.hops ∪ (Program.bindings program).hops)
        (fun id => kept id ∨ keptBy program id) [] program := by
  obtain ⟨cursor, hread, rfl⟩ := h.read
  obtain ⟨hle, hnumbered, hplaced⟩ := hs.read_program hread
  exact ⟨hle, hnumbered, hplaced h.bound⟩

theorem bindings_ofLines (f : Nat → Nat) (program : Program) :
    (Program.bindings (moveStatements (.ofLines f) program)).hops = (Program.bindings program).hops
      ∧ (Program.bindings (moveStatements (.ofLines f) program)).topLevel
        = (Program.bindings program).topLevel := by
  have h : Bindings.Displaced (.ofLines f) .empty (Program.bindings program)
      (Program.bindings (moveStatements (.ofLines f) program)) :=
    Program.bindings_append f program (show WellFormedStatements [] from trivial)
  constructor
  · apply Std.ExtTreeMap.ext_getElem?
    intro id
    have hid : _ = ((Program.bindings program).hops[id]?).or none := h.hops id
    rw [Option.or_none] at hid
    exact hid
  · rw [h.topLevel]
    exact List.map_id _

/-- The run of a source on marked lines. -/
def markedRun (s : Session) (steps : Nat) (program : Program) : EStateM.Result Halt Machine PUnit :=
  Run.interpret steps (moveStatements (.ofLines recent) program)
    { s.machine.move older with hops := s.machine.hops ∪ (Program.bindings program).hops }

/-- The session behind a marked run, without lines. -/
def markedLater (s : Session) (steps : Nat) (program : Program) (last : Nat) : Session :=
  ⟨{ (machineAfter (s.markedRun steps program)).move fun _ => 0 with
      hops := (Program.bindings program).topLevel.foldl (fun hops id => hops.erase id)
        (s.machine.hops ∪ (Program.bindings program).hops) }, last⟩

/-- What a source does after empty lines can be read off the marked run. -/
theorem InStep.run_below {s : Session} {kept : Nat → Prop} {w : World} (h : InStep kept w s s)
    (hreads : Reads source s.nextId program last) (steps k : Nat) :
    (s.run steps (blankLines k ++ source)).1 = resultAt k (s.markedRun steps program)
      ∧ (s.run steps (blankLines k ++ source)).2.withoutLines
        = s.markedLater steps program last := by
  obtain ⟨hle, hnumbered, hplaced⟩ := hreads.placed h.sound
  obtain ⟨hhops, htopLevel⟩ := bindings_ofLines (· + k) program
  have hwithin := Program.within_bindings hnumbered
  have hkeeps : ∀ id, kept id →
      (s.machine.hops ∪ (Program.bindings program).hops)[id]? = s.machine.hops[id]? := by
    intro id hid
    rw [getElem?_learn, hwithin.before id (h.sound.kept_lt id hid), Option.none_or]
  have hmatches := matches_marked (n := k) steps h.like h.chain (fun _ => Or.inl) hkeeps hkeeps hplaced
    fun _ _ => rfl
  have hlearn : { s.machine with hops := s.machine.hops ∪ (Program.bindings program).hops }
      = s.machine.learn (Program.bindings (moveStatements (.ofLines (· + k)) program)).hops := by
    rw [Machine.learn, hhops]
  rw [hlearn] at hmatches
  have hrun := runWith_marked last hmatches
  rw [htopLevel] at hrun
  rw [(hreads.below k).run]
  exact hrun

/-- A source runs to its end in the same way when the table has entries for later code as well. -/
theorem InStep.run_first {s : Session} {kept : Nat → Prop} {w : World} (h : InStep kept w s s)
    (hreads : Reads source s.nextId program middle) {both : Bindings}
    (hboth : ∀ id < middle, both.hops[id]? = (Program.bindings program).hops[id]?) {steps : Nat}
    {after : Machine}
    (hrun : Run.executeTop steps program (s.machine.learn (Program.bindings program).hops)
      = .ok ⟨⟩ after) :
    ∃ after' later, Run.executeTop steps program (s.machine.learn both.hops) = .ok ⟨⟩ after'
      ∧ Follows (apart (s.machine.hops ∪ (Program.bindings program).hops)
        (s.machine.hops ∪ both.hops) fun id => kept id ∨ keptBy program id) w later
        (s.machine.learn (Program.bindings program).hops) after after' := by
  obtain ⟨hle, hnumbered, hplaced⟩ := hreads.placed h.sound
  have hwithin := Program.within_bindings hnumbered
  have hlike : MachineLike (apart (s.machine.hops ∪ (Program.bindings program).hops)
      (s.machine.hops ∪ both.hops) fun id => kept id ∨ keptBy program id) w
      (s.machine.learn (Program.bindings program).hops) (s.machine.learn both.hops) := by
    refine h.like.retable (carries_plain (fun _ => Or.inl) (fun id hid => ?_) fun id hid => ?_)
    · rw [getElem?_learn, hwithin.before id (h.sound.kept_lt id hid), Option.none_or]
    · have hlt := h.sound.kept_lt id hid
      rw [getElem?_learn, hboth id (Nat.lt_of_lt_of_le hlt hle), hwithin.before id hlt,
        Option.none_or]
  have hprogram := statementsLike_refl (reflexive_apart _ _ _) (fun _ hid => hid) unchanged_nil
    program hplaced fun id hid =>
      show (s.machine.hops ∪ (Program.bindings program).hops)[id]?
          = (s.machine.hops ∪ both.hops)[id]? by
        rw [getElem?_learn, getElem?_learn, hboth id (hnumbered.lt id hid)]
  have hmatches := Run.matches_executeTop steps hlike h.chain hprogram
  unfold Run.Matches at hmatches
  rw [hrun] at hmatches
  rcases hrun' : Run.executeTop steps program (s.machine.learn both.hops)
    with ⟨_, after'⟩ | ⟨halt, after'⟩ <;> rw [hrun'] at hmatches
  · obtain ⟨later, hfollows, -⟩ := hmatches
    exact ⟨after', later, rfl, hfollows⟩
  · exact hmatches.elim

/-- Behind a source that has run to its end, what the next one does in the single source can be
read off the same marked run. -/
theorem InStep.run_seam {s : Session} {kept : Nat → Prop} {w : World} (h : InStep kept w s s)
    (hreads : Reads source s.nextId program middle) (hnext : Reads next middle rest last)
    {steps : Nat} {after : Machine}
    (hrun : Run.executeTop steps program (s.machine.learn (Program.bindings program).hops)
      = .ok ⟨⟩ after) {later : Session}
    (hlater : later = ⟨after.forget (Program.bindings program).topLevel, middle⟩)
    (hsound : later.Sound fun id => kept id ∨ keptBy program id) :
    (s.run steps (source ++ "\n" ++ next)).1 = resultAt (lineCount source) (later.markedRun steps rest)
      ∧ (s.run steps (source ++ "\n" ++ next)).2.withoutLines = later.markedLater steps rest last := by
  subst hlater
  obtain ⟨hle, hnumbered, hplaced⟩ := hreads.placed h.sound
  obtain ⟨-, hnumbered', hplaced'⟩ := hnext.placed hsound
  have hwithin := Program.within_bindings hnumbered
  have hwithin' := Program.within_bindings hnumbered'
  have hdisplaced := hreads.displaced (· + lineCount source) rest
  rw [(hreads.seam hnext).run]
  generalize Program.bindings (program ++ moveStatements (.ofLines (· + lineCount source)) rest)
    = both at hdisplaced ⊢
  have hboth : ∀ id : Nat, both.hops[id]?
      = ((Program.bindings rest).hops[id]?).or (Program.bindings program).hops[id]? :=
    hdisplaced.hops
  obtain ⟨after', w', hrun', hfollows⟩ := h.run_first hreads (fun id hid => by
    rw [hboth, hwithin'.before id hid, Option.none_or]) hrun
  have hhops : after.hops = s.machine.hops ∪ (Program.bindings program).hops := hfollows.like.hops
  have hhops' : after'.hops = s.machine.hops ∪ both.hops := hfollows.like.hops'
  have hforget : (after.forget (Program.bindings program).topLevel).hops
      = (Program.bindings program).topLevel.foldl (fun hops id => hops.erase id)
        (s.machine.hops ∪ (Program.bindings program).hops) := by
    rw [← hhops]
    rfl
  have hkeeps : ∀ id, kept id ∨ keptBy program id →
      ((after.forget (Program.bindings program).topLevel).hops
        ∪ (Program.bindings rest).hops)[id]?
        = (s.machine.hops ∪ (Program.bindings program).hops)[id]? := by
    intro id hid
    have hspared : id ∉ (Program.bindings program).topLevel := by
      intro htop
      rcases hid with hkept | hnew
      · exact absurd (hwithin.topLevel id htop).1 (Nat.not_le.mpr (h.sound.kept_lt id hkept))
      · exact hnew.2 htop
    rw [getElem?_learn, hwithin'.before id (hsound.kept_lt id hid), Option.none_or, hforget,
      getElem?_forget, if_neg hspared]
  have hsame : ∀ id ∈ statementReferences rest,
      ((after.forget (Program.bindings program).topLevel).hops
        ∪ (Program.bindings rest).hops)[id]? = (s.machine.hops ∪ both.hops)[id]? := by
    intro id hid
    have hge := hnumbered'.ge id hid
    rw [getElem?_learn, getElem?_learn, hboth, hwithin.after id hge, Option.or_none,
      hsound.unused id hge, h.sound.unused id (Nat.le_trans hle hge)]
  have hsecond := matches_marked (n := lineCount source) steps hfollows.like (hfollows.chain h.chain)
    (fun _ => Or.inl) hkeeps (fun _ _ => rfl) hplaced' hsame
  rw [← hhops'] at hsecond
  have hresult := runWith_marked last (hsecond.of_eq (Run.interpret_append _ hrun'))
  rw [hhops', hops_joined hdisplaced hwithin hwithin', ← hforget] at hresult
  exact hresult

theorem ok_of_runWith {s : Session} {bindings : Bindings} {body : Run PUnit}
    (h : (s.runWith bindings body).1 = .ok ⟨⟩) :
    ∃ after, body (s.machine.learn bindings.hops) = .ok ⟨⟩ after
      ∧ (s.runWith bindings body).2 = ⟨after.forget bindings.topLevel, s.nextId⟩ := by
  unfold runWith at h ⊢
  dsimp only at h ⊢
  rcases hbody : body (s.machine.learn bindings.hops) with ⟨_, after⟩ | ⟨halt, after⟩ <;>
    rw [hbody] at h
  · exact ⟨after, rfl, rfl⟩
  · cases h

/-- What a source leaves that has run to its end. -/
theorem InStep.run_ok {s : Session} {kept : Nat → Prop} {w : World} (h : InStep kept w s s)
    (hreads : Reads source s.nextId program middle) {steps : Nat}
    (hrun : (s.run steps source).1 = .ok ⟨⟩) :
    ∃ after, Run.executeTop steps program (s.machine.learn (Program.bindings program).hops)
        = .ok ⟨⟩ after
      ∧ (s.run steps source).2 = ⟨after.forget (Program.bindings program).topLevel, middle⟩
      ∧ (s.run steps source).2.Sound fun id => kept id ∨ keptBy program id := by
  obtain ⟨hle, hnumbered, hplaced⟩ := hreads.placed h.sound
  have hsound := h.sound.runWith (keptBy program) hle (Program.within_bindings hnumbered)
    (keptBy_within hnumbered) fun m hm hfits => Run.sound_interpret steps hm hfits hplaced
  rw [hreads.run] at hrun ⊢
  obtain ⟨after, hbody, hend⟩ := ok_of_runWith hrun
  exact ⟨after, Run.executeTop_of_interpret hbody, hend, hsound.1⟩

end Joining

/-- A session stays in step with itself. -/
theorem inStep_afterAll (outside : Outside) (history : List Request) :
    ∃ kept w, InStep kept w ((start outside).afterAll history) ((start outside).afterAll history) := by
  refine of_afterAll (P := fun s => ∃ kept w, InStep kept w s s) (fun s request hs => ?_) history
    ⟨_, _, inStep_start outside⟩
  have hnext := (agree_perform .forget hs (fun ids table id hid => ?_) request).2
  · rw [perform_eq_performBy] at hnext
    exact hnext
  · rw [Tidying.forget, getElem?_forget, if_neg hid]

/-- Once a source has run to its end, running another one comes to the same as running both as a
single source.  The single source is accepted as well, writes the same, and leaves the same up to
the lines that functions remember.  It ends in the same way, but a fault in the second source
stands further down by the lines of the first.  It does so exactly when it would also move down
with empty lines in front of the second source. -/
theorem run_append (outside : Outside) (history : List Request) (steps : Nat) {source next : String}
    (hsource : Accepted source) (hnext : Accepted next)
    (hrun : (((start outside).afterAll history).run steps source).1 = .ok ⟨⟩) :
    let s := (start outside).afterAll history
    let apart := (s.run steps source).2.run steps next
    let whole := s.run steps (source ++ "\n" ++ next)
    Accepted (source ++ "\n" ++ next) ∧ whole.2.output = apart.2.output
      ∧ whole.2.withoutLines = apart.2.withoutLines
      ∧ ((MovesDown (s.run steps source).2 steps next
          ∧ whole.1 = apart.1.mapError (Stop.below (lineCount source)))
        ∨ (StaysThere (s.run steps source).2 steps next ∧ whole.1 = apart.1)) := by
  intro s apart whole
  obtain ⟨kept, w, hs⟩ : ∃ kept w, InStep kept w s s := inStep_afterAll outside history
  obtain ⟨kept', w', hlater⟩ : ∃ kept w, InStep kept w (s.run steps source).2 (s.run steps source).2 := by
    have h := inStep_afterAll outside (history ++ [.run steps source])
    rw [afterAll, List.foldl_append] at h
    exact h
  obtain ⟨program, middle, hreads⟩ := hsource.reads s.nextId
  obtain ⟨rest, last, hreads'⟩ := hnext.reads middle
  obtain ⟨after, hprogram, hend, hsound⟩ := hs.run_ok hreads hrun
  have hnextId : (s.run steps source).2.nextId = middle := by rw [hend]
  have hbelow := fun k => hlater.run_below (hnextId.symm ▸ hreads') steps k
  obtain ⟨hresult, hsession⟩ := hs.run_seam hreads hreads' hprogram hend hsound
  have hapart : apart = (s.run steps source).2.run steps (blankLines 0 ++ next) := by
    rw [show blankLines 0 = "" from rfl, String.empty_append]
  have hsame : whole.2.withoutLines = apart.2.withoutLines := by
    rw [hapart]
    exact hsession.trans (hbelow 0).2.symm
  have hwhere : ∀ k, ((s.run steps source).2.run steps (blankLines k ++ next)).1
      = resultAt k ((s.run steps source).2.markedRun steps rest) := fun k => (hbelow k).1
  have hfirst : apart.1 = resultAt 0 ((s.run steps source).2.markedRun steps rest) := by
    rw [hapart]
    exact hwhere 0
  have houtput : whole.2.withoutLines.output = apart.2.withoutLines.output := by rw [hsame]
  refine ⟨hsource.seam hnext, houtput, hsame, ?_⟩
  rcases resultAt_cases ((s.run steps source).2.markedRun steps rest) with hmoves | hstays
  · exact Or.inl ⟨fun k => by rw [hwhere, hmoves, ← hfirst],
      by rw [hfirst, ← hmoves]; exact hresult⟩
  · exact Or.inr ⟨fun k => by rw [hwhere, hstays, ← hfirst],
      by rw [hfirst, ← hstays (lineCount source)]; exact hresult⟩

theorem eq_ok_of_isOk {result : Except Stop PUnit} (h : result.isOk = true) : result = .ok ⟨⟩ := by
  rcases result with stop | _
  · cases h
  · rfl

theorem run_append_function :
    Accepted "fun f(x) { print x; return nope; }" ∧ Accepted "print f;\nf(true);"
      ∧ ((start .unlimited).run 20 "fun f(x) { print x; return nope; }").1 = .ok ⟨⟩
      ∧ ((start .unlimited).run 20
          ("fun f(x) { print x; return nope; }" ++ "\n" ++ "print f;\nf(true);")).2.output
        = (((start .unlimited).run 20 "fun f(x) { print x; return nope; }").2.run 20
          "print f;\nf(true);").2.output := by
  have hsource : Accepted "fun f(x) { print x; return nope; }" := by decide +kernel
  have hnext : Accepted "print f;\nf(true);" := by decide +kernel
  have hrun : ((start .unlimited).run 20 "fun f(x) { print x; return nope; }").1 = .ok ⟨⟩ :=
    eq_ok_of_isOk (by decide +kernel)
  exact ⟨hsource, hnext, hrun, (run_append .unlimited [] 20 hsource hnext hrun).2.1⟩

end Session

end Treewalk
