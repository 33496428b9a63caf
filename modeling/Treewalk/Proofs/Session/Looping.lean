import Treewalk.Proofs.Evaluation.Comparing
import Treewalk.Proofs.Evaluation.SoundMoments
import Treewalk.Proofs.Session.Happening
import Treewalk.Proofs.Thinning.Beginnings
import Treewalk.Proofs.Thinning.Rounds

/-!
# A `for` statement is a loop

**Wherever a `for` statement runs in a session, it does what the loop does that it is written as.**
The code that the parser makes of it opens a frame in each round, which the loop does not.  So functions
that are made in a round have another frame between them and the variable of the loop, and other hop
counts.  But they are the same functions for everything that a program can see.

The loop has references of its own, which the machine does not know.  Their hop counts are those of
the scopes in which the clauses are written.
-/

namespace Treewalk

open Tables

/-! ### Moments of a session are sound -/

namespace Session

section Sources

variable {kept : Nat → Prop} {s : Session} {request : Request}

/-- A source begins in a sound machine, and numbers from some one on are unused. -/
theorem Sound.begins (hs : s.Sound kept) {root : Moment} (h : s.Begins request root) :
    ∃ (more : Nat → Prop) (first : Nat), root.Sound root.machine.hops more
      ∧ (∀ id, more id → id < first) ∧ ∀ id, first ≤ id → root.machine.hops[id]? = none := by
  have hunused : ∀ {bindings : Bindings} {last : Nat}, s.nextId ≤ last →
      bindings.Within s.nextId last → ∀ id, last ≤ id →
      (s.machine.learn bindings.hops).hops[id]? = none := by
    intro bindings last hle hwithin id hid
    show (s.machine.hops ∪ bindings.hops)[id]? = none
    rw [getElem?_learn, hwithin.after id hid, hs.unused id (Nat.le_trans hle hid)]
    rfl
  cases h with
  | run hreads steps =>
    obtain ⟨cursor, hread, rfl⟩ := hreads.read
    obtain ⟨hle, hnumbered, hplaced⟩ := hs.read_program hread
    have hwithin := Program.within_bindings hnumbered
    refine ⟨_, cursor.nextId, ⟨⟨hs.current, hplaced hreads.bound⟩, hs.learn hwithin⟩, ?_,
      hunused hle hwithin⟩
    rintro id (hold | hnew)
    · exact Nat.lt_of_lt_of_le (hs.kept_lt id hold) hle
    · exact (keptBy_within hnumbered id hnew).2.1
  | evaluate hreads steps =>
    obtain ⟨cursor, hread, rfl⟩ := hreads.read
    obtain ⟨hle, hnumbered, hplaced⟩ := hs.read_expression hread
    have hwithin := Expr.within_bindings hnumbered
    have hlearned : Machine.Sound _ (fun id => kept id ∨ False) _ := hs.learn hwithin
    refine ⟨_, cursor.nextId, ⟨⟨[], hs.current, hplaced hreads.bound⟩, hlearned⟩, ?_,
      hunused hle hwithin⟩
    rintro id (hold | hnew)
    · exact Nat.lt_of_lt_of_le (hs.kept_lt id hold) hle
    · exact hnew.elim

end Sources

/-- Everything that happens is sound. -/
theorem Happens.sound {outside : Outside} {history : List Request} {moment : Moment}
    (h : Happens outside history moment) :
    ∃ (kept : Nat → Prop) (first : Nat), moment.Sound moment.machine.hops kept
      ∧ (∀ id, kept id → id < first) ∧ ∀ id, first ≤ id → moment.machine.hops[id]? = none := by
  obtain ⟨before, request, rest, root, -, hbegins, hreaches⟩ := h
  obtain ⟨_, hs⟩ := of_afterAll (P := fun s => ∃ kept, s.Sound kept)
    (fun _ request hs => (Sound.perform hs request).1) before ⟨_, sound_start outside⟩
  obtain ⟨kept, first, hroot, hlt, hunused⟩ := hs.begins hbegins
  have hmoment := hroot.reaches hreaches
  rw [hmoment.machine.hops]
  exact ⟨kept, first, hmoment, hlt, hunused⟩

end Session

/-! ### The end of both -/

/-- Two runs from one machine have had the same effect: the same output, the same fields, and the
    same values in every frame that was there before. -/
structure Machine.SameEffect (c : Tables) (later : Pairing) (m after after' : Machine) : Prop where
  like : MachineLike c later after after'
  old : ∀ f : FrameId, f.index < m.store.frames.size → later.Kept f f
  current : after.current = m.current
  current' : after'.current = m.current

namespace Run

/-- Two runs from one machine end in the same way, with the same effect. -/
inductive SameEnd (c : Tables) (m : Machine) :
    EStateM.Result Halt Machine Flow → EStateM.Result Halt Machine Flow → Prop
  | ok {later : Pairing} {flow flow' : Flow} {after after' : Machine}
    (hflow : FlowLike c later flow flow') (heffect : m.SameEffect c later after after') :
    SameEnd c m (.ok flow after) (.ok flow' after')
  | error {later : Pairing} {after after' : Machine} (halt : Halt)
    (heffect : m.SameEffect c later after after') :
    SameEnd c m (.error halt after) (.error halt after')

theorem Aligned.sameEnd {c : Tables} {x x' : Run Flow} {m : Machine} {table : HopTable}
    (h : Aligned c m.store.pairing x x' m { m with hops := table } (FlowLike c))
    (hbreach : ∀ breach after, x m ≠ .error (.breach breach) after) :
    SameEnd c m (x m) (x' { m with hops := table }) := by
  have heffect : ∀ {later : Pairing} {after after' : Machine},
      Onward c m.store.pairing later m { m with hops := table } after after' →
      m.SameEffect c later after after' := fun hon =>
    ⟨hon.like, fun f hf => (Store.kept_pairing hf).mono hon.world, hon.current, hon.current'⟩
  rcases h.cases with ⟨flow, flow', after, after', later, ha, ha', hon, hflow⟩ |
    ⟨halt, halt', after, after', later, ha, ha', hon, hhalt⟩
  · rw [ha, ha']
    exact .ok hflow (heffect hon)
  · rw [ha, ha']
    cases hhalt with
    | same => exact .error halt (heffect hon)
    | breach b b' => exact absurd ha (hbreach b after)

end Run

/-! ### Clauses of the parser -/

/-- The body behind the clauses is no declaration. -/
theorem Parser.gives_clauses (steps : Nat) {c : Cursor} (hc : c.Lexed) :
    Gives (forClauses steps) c fun clauses _ => clauses.body.isDeclaration = false := by
  cases steps with
  | zero => exact gives_fail _
  | succ steps =>
    rw [forClauses]
    refine (gives_expect _ _).bind fun _ c₁ h₁ _ => ?_
    have hc₁ := hc.onward h₁
    refine (gives_forInitializer steps hc₁).bind fun initializer c₂ h₂ _ => ?_
    have hc₂ := hc₁.onward h₂
    refine (gives_expressionBefore steps _ hc₂).bind fun condition c₃ h₃ _ => ?_
    have hc₃ := hc₂.onward h₃
    refine (gives_expect _ _).bind fun _ c₄ h₄ _ => ?_
    have hc₄ := hc₃.onward h₄
    refine (gives_expressionBefore steps _ hc₄).bind fun increment c₅ h₅ _ => ?_
    have hc₅ := hc₄.onward h₅
    refine (gives_expect _ _).bind fun _ c₆ h₆ _ => ?_
    refine (gives_statement steps c₆ (hc₅.onward h₆)).bind fun body c₇ _ hbody => ?_
    exact gives_pure hbody.2

/-- A `for` statement is made of the clauses that stand in the source. -/
theorem Parser.clauses_of_forStatement {steps : Nat} {c later : Cursor} {s : Stmt} (hc : c.Lexed)
    (h : forStatement steps c = .ok s later) :
    ∃ clauses, forClauses steps c = .ok clauses later ∧ s = clauses.statement
      ∧ clauses.body.isDeclaration = false := by
  have hgives := gives_clauses steps hc
  unfold Gives at hgives
  rw [forStatement_eq] at h
  replace h : EStateM.map ForClauses.statement (forClauses steps) c = .ok s later := h
  unfold EStateM.map at h
  rcases hclauses : forClauses steps c with ⟨clauses, middle⟩ | ⟨fault, middle⟩
  · rw [hclauses] at h hgives
    cases h
    exact ⟨clauses, rfl, rfl, hgives.2⟩
  · rw [hclauses] at h
    cases h

/-! ### The statement and the loop -/

section Loops

variable {m : Machine} {kept : Nat → Prop} {clauses : ForClauses} {scopes : List Scope}

/-- The clauses can be given references of their own. -/
theorem ForClauses.exists_table (hplain : clauses.body.isDeclaration = false)
    (hplaced : clauses.statement.Placed m.hops kept scopes)
    (hnodup : clauses.statement.references.Nodup) (first : Nat) :
    ∃ table : HopTable, (∀ id, id < first → table[id]? = m.hops[id]?)
      ∧ (clauses.move (.ofIds (· + first))).Placed table scopes := by
  have hmoved : (clauses.statement.move (.ofIds (· + first))).references.Nodup := by
    rw [Stmt.references_move]
    exact hnodup.map (fun _ _ h => Nat.add_right_cancel h)
  obtain ⟨table, hagree, htable⟩ := ForClauses.settable hplain hplaced hmoved m.hops
  refine ⟨table, fun id hid => hagree id fun hmem => ?_, htable⟩
  rw [Stmt.references_move] at hmem
  obtain ⟨old, -, rfl⟩ := List.mem_map.mp hmem
  exact absurd hid (Nat.not_lt_of_le (Nat.le_add_left first old))

/-- The statement and the loop end alike, if the one with fewer steps does not give up. -/
theorem ForClauses.sameEnd (hm : m.Sound m.hops kept) (hfits : m.store.Fits m.current scopes)
    (hplain : clauses.body.isDeclaration = false)
    (hplaced : clauses.statement.Placed m.hops kept scopes) {table : HopTable} {ι : Nat → Nat}
    (hagree : ∀ id, kept id → m.hops[id]? = table[id]?)
    (hown : (clauses.move (.ofIds ι)).Placed table scopes) {side : Bool} {n k : Nat}
    (hsteps : Run.Fewer side 7 n k)
    (hleft : side = true → ¬Run.GaveUp (Run.execute n clauses.statement m))
    (hright : side = false → ¬Run.GaveUp
      (Run.forStatement k (clauses.move (.ofIds ι)) { m with hops := table })) :
    Run.SameEnd ⟨m.hops, table⟩ m (Run.execute n clauses.statement m)
      (Run.forStatement k (clauses.move (.ofIds ι)) { m with hops := table }) := by
  have hlike := hm.alike hagree (hfits.lt_size hm.size)
  have hleftPlaced : clauses.statement.Placed m.hops (fun _ => True) scopes :=
    Stmt.placed_of_agree (fun _ _ => trivial) _ hplaced fun _ _ => rfl
  have hkeeps := Run.sound_execute n clauses.statement hm hfits hplaced
  rcases Run.lags_forStatement hplain hsteps hlike hfits.around hleftPlaced hown with
    ⟨hside, hgave⟩ | ⟨hside, hgave⟩ | haligned
  · exact absurd hgave (hleft hside)
  · exact absurd hgave (hright hside)
  · refine haligned.sameEnd fun breach after hrun => ?_
    unfold Run.Keeps at hkeeps
    rw [hrun] at hkeeps
    exact hkeeps.2.2 breach rfl

end Loops

namespace Session

open Run

/-- **A `for` statement runs as a loop.**  Every `for` statement of the parser is made of the clauses
    that stand in the source, and of a body that is no declaration.  Wherever such a statement runs in
    a history, the clauses can have references of their own, from some `first` on, which the machine
    does not use.  A table gives them the hops of a loop: condition, body and increment are in the
    same scopes, whichever of them there are.  If the statement ends, it does what the loop does: it
    writes the same output, returns or fails in the same way, and leaves the same values in all frames
    that were there before.  Conversely, if the loop ends, the statement does so with seven steps
    more. -/
theorem for_statement_runs_as_loop (outside : Outside) (history : List Request) :
    (∀ (steps : Nat) (c later : Cursor) (s : Stmt), c.Lexed →
      Parser.forStatement steps c = .ok s later →
      ∃ clauses : ForClauses, Parser.forClauses steps c = .ok clauses later
        ∧ s = clauses.statement ∧ clauses.body.isDeclaration = false)
    ∧ ∀ (clauses : ForClauses) (n : Nat) (m : Machine), clauses.body.isDeclaration = false →
      Happens outside history ⟨.execute clauses.statement, n, m⟩ →
      ∃ (first : Nat) (table : HopTable) (scopes : List Scope),
        m.store.Fits m.current scopes
        ∧ (∀ id, first ≤ id → m.hops[id]? = none)
        ∧ (∀ id, id < first → table[id]? = m.hops[id]?)
        ∧ (clauses.move (.ofIds (· + first))).Placed table scopes
        ∧ (∀ k, ¬GaveUp (execute k clauses.statement m) →
          SameEnd ⟨m.hops, table⟩ m (execute k clauses.statement m)
            (forStatement k (clauses.move (.ofIds (· + first))) { m with hops := table }))
        ∧ ∀ k, ¬GaveUp (forStatement k (clauses.move (.ofIds (· + first))) { m with hops := table }) →
          SameEnd ⟨m.hops, table⟩ m (execute (k + 7) clauses.statement m)
            (forStatement k (clauses.move (.ofIds (· + first))) { m with hops := table }) := by
  constructor
  · intro steps c later s hc hparsed
    exact Parser.clauses_of_forStatement hc hparsed
  · intro clauses n m hplain hh
    obtain ⟨kept, first, ⟨⟨scopes, hfits, hplaced⟩, hm⟩, hlt, hunused⟩ := hh.sound
    have hnodup : clauses.statement.references.Nodup := hh.known.task.2.1
    obtain ⟨table, hbelow, hown⟩ := ForClauses.exists_table hplain hplaced hnodup first
    have hagree : ∀ id, kept id → m.hops[id]? = table[id]? := fun id hid =>
      (hbelow id (hlt id hid)).symm
    refine ⟨first, table, scopes, hfits, hunused, hbelow, hown, fun k hk => ?_, fun k hk => ?_⟩
    · have hsteps : Fewer true 7 k k := Nat.le_refl k
      exact ForClauses.sameEnd hm hfits hplain hplaced hagree hown hsteps (fun _ => hk) nofun
    · have hsteps : Fewer false 7 (k + 7) k := Nat.le_refl (k + 7)
      exact ForClauses.sameEnd hm hfits hplain hplaced hagree hown hsteps nofun fun _ => hk

/-- The clauses of `for (var on = true; on; on = false) print on;`, a loop with one round. -/
def singleRound : ForClauses where
  initializer := some (.var ⟨"on", 1⟩ (some (.literal .true)))
  condition := some (.variable ⟨"on", 1⟩ 0)
  increment := some (.assign ⟨"on", 1⟩ 2 (.literal .false))
  body := .print (.variable ⟨"on", 1⟩ 3)

theorem reads_singleRound :
    Reads "for (var on = true; on; on = false) print on;" 0 [singleRound.statement] 4 where
  lexical := by decide +kernel
  read := ⟨(Cursor.start (tokens "for (var on = true; on; on = false) print on;") 0).program.2.2,
    by decide +kernel, by decide +kernel⟩
  bound := by decide +kernel

/-- The machine in which this loop begins. -/
def beforeRound : Machine :=
  (start .unlimited).machine.learn (Program.bindings [singleRound.statement]).hops

theorem for_statement_runs_as_loop_singleRound :
    Happens .unlimited [.run 20 "for (var on = true; on; on = false) print on;"]
        ⟨.execute singleRound.statement, 20, beforeRound⟩
      ∧ ¬GaveUp (execute 20 singleRound.statement beforeRound)
      ∧ ∃ (first : Nat) (table : HopTable),
        SameEnd ⟨beforeRound.hops, table⟩ beforeRound
          (execute 20 singleRound.statement beforeRound)
          (forStatement 20 (singleRound.move (.ofIds (· + first)))
            { beforeRound with hops := table }) := by
  have hh : Happens .unlimited [.run 20 "for (var on = true; on; on = false) print on;"]
      ⟨.execute singleRound.statement, 20, beforeRound⟩ :=
    ⟨[], _, [], _, rfl, .run reads_singleRound 20, .single .first⟩
  have hends : ¬GaveUp (execute 20 singleRound.statement beforeRound) := by
    rintro ⟨after, hrun⟩
    have hok : (match execute 20 singleRound.statement beforeRound with
      | .ok _ _ => true
      | .error _ _ => false) = true := by decide +kernel
    rw [hrun] at hok
    cases hok
  obtain ⟨first, table, _, -, -, -, -, hsame, -⟩ :=
    (for_statement_runs_as_loop .unlimited _).2 singleRound 20 beforeRound rfl hh
  exact ⟨hh, hends, first, table, hsame 20 hends⟩

end Session

end Treewalk
