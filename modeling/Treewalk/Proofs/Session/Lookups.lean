import Treewalk.Proofs.Evaluation.Comparing
import Treewalk.Proofs.Session.Charting
import Treewalk.Proofs.Store.Chains

/-!
# Counting hops and walking outward

**Where all names of a program are different, counting hops finds what walking outward would find.**
The frames before the one that a hop count leads to are those of scopes that do not declare the name,
and a frame binds only what its scope declares.  Assignments also only write where the name is
bound already, with one exception: in the initializer of a variable the name is in its scope and
not yet in the frame, and an assignment to it there binds it.
-/

namespace Treewalk

open Run

/-! ### The frame that binds a name -/

/-- No frame before the one that hops lead to binds a name that the shapes before it do not declare. -/
theorem Machine.Charted.owner? {c : Scene} {chart : Chart} {m : Machine} (hm : m.Charted c chart)
    {f owner : FrameId} {shapes : List Shape} (hchain : chart.Chain f shapes) {hops : Nat}
    (hlt : hops < shapes.length) {name : String}
    (hbefore : ∀ k < hops, ∀ shape, shapes[k]? = some shape → ¬ shape.Declares name)
    (howner : m.store.ancestor? f hops = some owner) (hbound : (m.store.local? owner name).isSome) :
    m.store.owner? f name = some owner := by
  refine Store.owner?_of_ancestor? howner hbound fun k hk g hg => ?_
  obtain ⟨shape, hshape⟩ : ∃ shape, shapes[k]? = some shape :=
    ⟨_, List.getElem?_eq_getElem (Nat.lt_trans hk hlt)⟩
  obtain ⟨found, outer, hfound, hlabel⟩ := hm.ancestor? hchain hshape
  cases hfound.symm.trans hg
  rcases hlocal : m.store.local? g name with _ | value
  · rfl
  · exact absurd (hm.admits g shape outer hlabel name value hlocal).declares
      (hbefore k hk shape hshape)

/-- Where names are different, the hop count of a name leads to the frame that owns it. -/
theorem Machine.At.owner? {c : Scene} {chart : Chart} {initialized : Option String}
    {scopes : List Scope} {shapes : List Shape} {m : Machine}
    (hm : m.At c chart initialized scopes shapes) (hdistinct : c.distinct) {hops : Nat} {name : String}
    (hhops : hopsIn scopes name = some hops) {owner : FrameId}
    (howner : m.store.ancestor? m.current hops = some owner)
    (hbound : (m.store.local? owner name).isSome) :
    m.store.owner? m.current name = some owner := by
  obtain ⟨shape, hshape, -⟩ := hm.stands.shaped.declares_of_hopsIn hhops
  exact hm.charted.owner? hm.stands.chain (List.getElem?_eq_some_iff.mp hshape).1
    (fun _ hk _ hget => hm.stands.shaped.not_declares_before hdistinct hhops hk hget) howner hbound

/-! ### Places of references -/

section Places

variable {c : Scene} {chart : Chart} {initialized : Option String} {scopes : List Scope}
variable {shapes : List Shape} {m : Machine}

theorem Machine.At.get?_of_defines (hm : m.At c chart initialized scopes shapes)
    (hdistinct : c.distinct) {hops : Nat} {name : String} (hhops : hopsIn scopes name = some hops)
    (hready : Defines scopes hops name) :
    ∃ value, m.store.getAt m.current hops name = .ok value
      ∧ m.store.get? m.current name = some value := by
  obtain ⟨owner, value, howner, hlocal, hget⟩ := hm.stands.fits.getAt hready
  have howns := hm.owner? hdistinct hhops howner (by rw [hlocal]; rfl)
  refine ⟨value, hget, ?_⟩
  rw [Store.get?, howns]
  exact hlocal

/-- Every name in a scope is ready, but for the variable whose initializer is being read. -/
theorem Machine.At.bound (hm : m.At c chart initialized scopes shapes) {hops : Nat} {name : String}
    (hhops : hopsIn scopes name = some hops) (hother : initialized ≠ some name) :
    ∃ owner, m.store.ancestor? m.current hops = some owner ∧ (m.store.local? owner name).isSome := by
  obtain ⟨scope, hscope, hmem⟩ := exists_of_hopsIn hhops
  have hstanding := Std.ExtTreeMap.isSome_getElem?_iff_mem.mpr hmem
  obtain ⟨standing, hstanding⟩ := Option.isSome_iff_exists.mp hstanding
  rcases hm.ready scope (List.mem_of_getElem? hscope) name standing hstanding with rfl | hsame
  · obtain ⟨owner, value, howner, hlocal, -⟩ := hm.stands.fits.getAt ⟨scope, hscope, hstanding⟩
    exact ⟨owner, howner, by rw [hlocal]; rfl⟩
  · exact absurd hsame hother

end Places

/-- At this moment the name of the reference is looked up: that of a variable or of the superclass of
    a class, `this` or `super`. -/
inductive Moment.LooksUp : Moment → Name → Nat → Prop
  | variable {name : Name} {id n : Nat} {m : Machine} :
    LooksUp ⟨.evaluate (.variable name id), n, m⟩ name id
  | superclass {name : Name} {superclass : Reference} {methods : List FunctionDecl} {n : Nat}
    {m : Machine} :
    LooksUp ⟨.execute (.class name (some superclass) methods), n, m⟩ superclass.name superclass.id
  | this {line id n : Nat} {m : Machine} :
    LooksUp ⟨.evaluate (.this line id), n, m⟩ ⟨"this", line⟩ id
  | super {line id n : Nat} {method : Name} {m : Machine} :
    LooksUp ⟨.evaluate (.super line id method), n, m⟩ ⟨"super", line⟩ id

namespace Moment.ChartedOn

variable {c : Scene} {chart : Chart} {name : Name} {id n hops : Nat} {m after : Machine}

/-- A hop count leads to the scope of the name, which is ready there. -/
theorem defines {moment : Moment} (h : moment.ChartedOn c chart) (hlooks : moment.LooksUp name id)
    (hid : moment.machine.hops[id]? = some hops) :
    ∃ initialized scopes shapes, moment.machine.At c chart initialized scopes shapes
      ∧ hopsIn scopes name.text = some hops ∧ Defines scopes hops name.text := by
  rw [h.machine.hops] at hid
  cases hlooks with
  | «variable» =>
    obtain ⟨initialized, scopes, shapes, hm, hs⟩ := h.task
    have hplaced : ReadPlaced c.table scopes id name.text := hs.placed
    rw [hplaced.hops] at hid
    exact ⟨initialized, scopes, shapes, hm, hid, hplaced.ready hops hid⟩
  | superclass =>
    obtain ⟨scopes, shapes, hm, hs⟩ := h.task
    have hplaced := (hs.superclass.placed _ rfl).2
    rw [hplaced.hops] at hid
    exact ⟨none, scopes, shapes, hm, hid, hplaced.ready hops hid⟩
  | this =>
    obtain ⟨initialized, scopes, shapes, hm, hs⟩ := h.task
    have hplaced : ReadPlaced c.table scopes id "this" := hs.placed
    rw [hplaced.hops] at hid
    exact ⟨initialized, scopes, shapes, hm, hid, hplaced.ready hops hid⟩
  | super =>
    obtain ⟨initialized, scopes, shapes, hm, hs⟩ := h.task
    obtain ⟨inner, hhops, hsuper, hready, -⟩ := hs.super.1
    cases hhops.symm.trans hid
    exact ⟨initialized, scopes, shapes, hm, hsuper, hready⟩

/-- When the value of an assignment has been computed, the machine is where the assignment stands, and
    its hop count leads to the scope of the name. -/
theorem assigned {e : Expr} {value : Value}
    (h : ChartedOn c chart ⟨.evaluate (.assign name id e), n + 1, m⟩)
    (hclosed : Moment.Closed c.happened) (hh : c.happened ⟨.evaluate (.assign name id e), n + 1, m⟩)
    (hvalue : evaluate n e m = .ok value after) (hid : after.hops[id]? = some hops) :
    ∃ later initialized scopes shapes, after.At c later initialized scopes shapes
      ∧ hopsIn scopes name.text = some hops ∧ c.known (.assign initialized name.text id) := by
  obtain ⟨initialized, scopes, shapes, hm, hs⟩ := h.task
  obtain ⟨he, hhops, -, hknown⟩ := hs.assign
  obtain ⟨later, hafter, -⟩ := hm.evaluate hclosed he (hclosed hh .assigned) hvalue
  rw [hafter.charted.hops, hhops] at hid
  exact ⟨later, initialized, scopes, shapes, hafter, hid, hknown⟩

end Moment.ChartedOn

/-! ### Looking up by hops -/

theorem Run.read_of_getAt {name : Name} {id hops : Nat} {m : Machine} {value : Value}
    (hid : m.hops[id]? = some hops) (h : m.store.getAt m.current hops name.text = .ok value) :
    read name id m = .ok value m := by
  have hhops : hopsOf id m = .ok m.hops[id]? m := rfl
  rw [read, bind_of_ok hhops, hid]
  exact readAt_of_ok h

/-- An assignment by a hop count binds the name in the frame that the hops lead to. -/
theorem Run.evaluate_assign_of_ancestor {name : Name} {id hops n : Nat} {e : Expr} {m after : Machine}
    {value : Value} {owner : FrameId} (hvalue : evaluate n e m = .ok value after)
    (hid : after.hops[id]? = some hops)
    (howner : after.store.ancestor? after.current hops = some owner) :
    evaluate (n + 1) (.assign name id e) m
      = .ok value { after with store := after.store.define owner name.text value } := by
  have hhops : hopsOf id after = .ok after.hops[id]? after := rfl
  have hassign : assign name id value after
      = .ok ⟨⟩ { after with store := after.store.define owner name.text value } := by
    rw [assign, bind_of_ok hhops, hid]
    exact assignAt_of_ancestor howner value
  rw [evaluate, bind_of_ok hvalue, bind_of_ok hassign]
  rfl

/-! ### Sessions -/

namespace Session

variable {outside : Outside} {history : List Request}

/-- What is known of an assignment in a history: in its own initializer it stands only if a program
    of the history says so. -/
theorem ne_initialized {table : HopTable} {kept : Nat → Prop} {initialized : Option String}
    {text : String} {id : Nat}
    (hknown : (scene outside history table kept).known (.assign initialized text id))
    (hother : ∀ program ∈ (start outside).programs history, ¬ program.AssignsInOwnInitializer id) :
    initialized ≠ some text := by
  rintro rfl
  rcases hknown with ⟨program, hprogram, hmention⟩ | ⟨_, _, hfree⟩
  · exact hother program hprogram ⟨text, hmention⟩
  · cases hfree

/-- An assignment to a local variable finds it bound, unless it stands in the initializer of the
    variable. -/
theorem bound_of_assigned {name : Name} {id n hops : Nat} {e : Expr} {m after : Machine}
    {value : Value} (h : Happens outside history ⟨.evaluate (.assign name id e), n + 1, m⟩)
    (hvalue : Run.evaluate n e m = .ok value after) (hid : after.hops[id]? = some hops)
    (hother : ∀ program ∈ (start outside).programs history, ¬ program.AssignsInOwnInitializer id) :
    ∃ table kept later initialized scopes shapes owner,
      after.At (scene outside history table kept) later initialized scopes shapes
        ∧ hopsIn scopes name.text = some hops
        ∧ after.store.ancestor? after.current hops = some owner
        ∧ (after.store.local? owner name.text).isSome := by
  obtain ⟨table, kept, chart, hmoment⟩ := h.charted
  obtain ⟨later, initialized, scopes, shapes, hafter, hhops, hknown⟩ :=
    hmoment.assigned (closed_happens outside history) h hvalue hid
  obtain ⟨owner, howner, hbound⟩ := hafter.bound hhops (ne_initialized hknown hother)
  exact ⟨table, kept, later, initialized, scopes, shapes, owner, hafter, hhops, howner, hbound⟩

/-- **Counting hops agrees with walking outward.**  In every session whose programs use no name for
    two declarations, what a reference finds by its hop count is what walking outward finds, and it
    is what the reference is read as.  An assignment that does not stand in the initializer of its own
    variable leaves the store that walking outward would leave. -/
theorem hops_agree
    (hdistinct : ∀ program ∈ (start outside).programs history, program.declaredNames.Nodup) :
    (∀ {moment : Moment} {name : Name} {id hops : Nat}, Happens outside history moment →
        moment.LooksUp name id → moment.machine.hops[id]? = some hops →
        ∃ value, moment.machine.store.getAt moment.machine.current hops name.text = .ok value
          ∧ moment.machine.store.get? moment.machine.current name.text = some value
          ∧ read name id moment.machine = .ok value moment.machine)
      ∧ ∀ {name : Name} {id n hops : Nat} {e : Expr} {m after : Machine} {value : Value},
        Happens outside history ⟨.evaluate (.assign name id e), n + 1, m⟩ →
        Run.evaluate n e m = .ok value after → after.hops[id]? = some hops →
        (∀ program ∈ (start outside).programs history, ¬ program.AssignsInOwnInitializer id) →
        ∃ store, after.store.assignAt after.current hops name.text value = .ok store
          ∧ after.store.assign? after.current name.text value = some store
          ∧ Run.evaluate (n + 1) (.assign name id e) m = .ok value { after with store } := by
  refine ⟨fun h hlooks hid => ?_, fun h hvalue hid hother => ?_⟩
  · obtain ⟨table, kept, chart, hmoment⟩ := h.charted
    obtain ⟨initialized, scopes, shapes, hm, hhops, hready⟩ := hmoment.defines hlooks hid
    obtain ⟨value, hget, hwalk⟩ := hm.get?_of_defines hdistinct hhops hready
    exact ⟨value, hget, hwalk, read_of_getAt hid hget⟩
  · obtain ⟨table, kept, later, initialized, scopes, shapes, owner, hafter, hhops, howner, hbound⟩ :=
      bound_of_assigned h hvalue hid hother
    have howns := hafter.owner? hdistinct hhops howner hbound
    refine ⟨_, ?_, ?_, evaluate_assign_of_ancestor hvalue hid howner⟩
    · simp only [Store.assignAt, howner]
    · simp only [Store.assign?, howns]

/-- What the inner block evaluates. -/
def selfAssignment : Expr :=
  .assign ⟨"a", 1⟩ 2 (.variable ⟨"a", 1⟩ 1)

/-- A variable that is read and assigned to from inside another block. -/
def nestedBlocks : Program :=
  [.block [.var ⟨"a", 1⟩ none, .block [.expression selfAssignment]]]

/-- The machine in which the blocks begin to run. -/
def beforeBlocks : Machine :=
  (start .unlimited).machine.learn (Program.bindings nestedBlocks).hops

/-- The machine in the outer block, behind the declaration. -/
def betweenBlocks : Machine :=
  left (execute 18 (.var ⟨"a", 1⟩ none)) { left blockFrame beforeBlocks with current := ⟨1⟩ }

/-- The machine in the inner block. -/
def insideBlocks : Machine :=
  { left blockFrame betweenBlocks with current := ⟨2⟩ }

theorem reads_nestedBlocks : Reads "{ var a; { a = a; } }" 0 nestedBlocks 3 :=
  ⟨by decide +kernel,
    ⟨(Cursor.start (tokens "{ var a; { a = a; } }") 0).program.2.2,
      by decide +kernel, by decide +kernel⟩,
    by decide +kernel⟩

theorem happens_selfAssignment :
    Happens .unlimited [.run 20 "{ var a; { a = a; } }"]
      ⟨.evaluate selfAssignment, 14, insideBlocks⟩ := by
  have hbegins : Happens .unlimited [.run 20 "{ var a; { a = a; } }"]
      ⟨.program nestedBlocks, 20, beforeBlocks⟩ :=
    ⟨[], _, [], _, rfl, .run reads_nestedBlocks 20, .refl⟩
  have hclosed := closed_happens .unlimited [.run 20 "{ var a; { a = a; } }"]
  have houter := hclosed (hclosed hbegins .first)
    (.block (rfl : blockFrame beforeBlocks = .ok ⟨1⟩ (left blockFrame beforeBlocks)))
  have hdeclared : execute 18 (.var ⟨"a", 1⟩ none)
      { left blockFrame beforeBlocks with current := ⟨1⟩ } = .ok .normal betweenBlocks :=
    eq_ok_left (by decide +kernel)
  have hinner := hclosed (hclosed (hclosed houter (.tail hdeclared)) .head)
    (.block (rfl : blockFrame betweenBlocks = .ok ⟨2⟩ (left blockFrame betweenBlocks)))
  exact hclosed (hclosed hinner .head) .expression

theorem programs_nestedBlocks :
    (start .unlimited).programs [.run 20 "{ var a; { a = a; } }"] = [nestedBlocks] :=
  programs_run reads_nestedBlocks 20

theorem evaluate_insideBlocks :
    Run.evaluate 13 (.variable ⟨"a", 1⟩ 1) insideBlocks = .ok .nil insideBlocks := by
  rw [Run.evaluate]
  exact read_of_getAt (by decide +kernel : insideBlocks.hops[1]? = some 1) (by decide +kernel)

theorem nestedBlocks_other :
    ∀ program ∈ (start .unlimited).programs [.run 20 "{ var a; { a = a; } }"],
      ¬ program.AssignsInOwnInitializer 2 := by
  rw [programs_nestedBlocks, List.forall_mem_singleton]
  rintro ⟨text, hmention⟩
  cases List.mem_singleton.mp hmention

/-- Both references of the inner block are one hop away from the variable. -/
theorem hops_agree_block :
    (∀ program ∈ (start .unlimited).programs [.run 20 "{ var a; { a = a; } }"],
        program.declaredNames.Nodup)
      ∧ Happens .unlimited [.run 20 "{ var a; { a = a; } }"]
        ⟨.evaluate (.variable ⟨"a", 1⟩ 1), 13, insideBlocks⟩
      ∧ insideBlocks.hops[1]? = some 1
      ∧ (∃ value, insideBlocks.store.getAt ⟨2⟩ 1 "a" = .ok value
        ∧ insideBlocks.store.get? ⟨2⟩ "a" = some value)
      ∧ Happens .unlimited [.run 20 "{ var a; { a = a; } }"]
        ⟨.evaluate selfAssignment, 14, insideBlocks⟩
      ∧ insideBlocks.hops[2]? = some 1
      ∧ ∃ store, insideBlocks.store.assignAt ⟨2⟩ 1 "a" .nil = .ok store
        ∧ insideBlocks.store.assign? ⟨2⟩ "a" .nil = some store := by
  have hdistinct : ∀ program ∈ (start .unlimited).programs [.run 20 "{ var a; { a = a; } }"],
      program.declaredNames.Nodup := by
    rw [programs_nestedBlocks, List.forall_mem_singleton]
    decide
  have hread : insideBlocks.hops[1]? = some 1 := by decide +kernel
  have hassigned : insideBlocks.hops[2]? = some 1 := by decide +kernel
  have hvariable := closed_happens _ _ happens_selfAssignment .assigned
  obtain ⟨value, hget, hwalk, -⟩ := (hops_agree hdistinct).1 hvariable .variable hread
  obtain ⟨store, hat, houtward, -⟩ := (hops_agree hdistinct).2 happens_selfAssignment
    evaluate_insideBlocks hassigned nestedBlocks_other
  exact ⟨hdistinct, hvariable, hread, ⟨value, hget, hwalk⟩, happens_selfAssignment, hassigned, store,
    hat, houtward⟩

/-- An assignment to a local variable overwrites, unless it stands in the initializer of the
    variable: the frame that its hops lead to binds the name already, and there it is changed. -/
theorem assignments_overwrite {name : Name} {id n hops : Nat} {e : Expr} {m after : Machine}
    {value : Value} (h : Happens outside history ⟨.evaluate (.assign name id e), n + 1, m⟩)
    (hvalue : Run.evaluate n e m = .ok value after) (hid : after.hops[id]? = some hops)
    (hother : ∀ program ∈ (start outside).programs history, ¬ program.AssignsInOwnInitializer id) :
    ∃ owner, after.store.ancestor? after.current hops = some owner
      ∧ (after.store.local? owner name.text).isSome
      ∧ Run.evaluate (n + 1) (.assign name id e) m
        = .ok value { after with store := after.store.define owner name.text value } := by
  obtain ⟨-, -, -, -, -, -, owner, -, -, howner, hbound⟩ := bound_of_assigned h hvalue hid hother
  exact ⟨owner, howner, hbound, evaluate_assign_of_ancestor hvalue hid howner⟩

/-- The inner block assigns to the variable of the outer one. -/
theorem assignments_overwrite_block :
    Happens .unlimited [.run 20 "{ var a; { a = a; } }"]
        ⟨.evaluate selfAssignment, 14, insideBlocks⟩
      ∧ Run.evaluate 13 (.variable ⟨"a", 1⟩ 1) insideBlocks = .ok .nil insideBlocks
      ∧ insideBlocks.hops[2]? = some 1
      ∧ (∀ program ∈ (start .unlimited).programs [.run 20 "{ var a; { a = a; } }"],
        ¬ program.AssignsInOwnInitializer 2)
      ∧ ∃ owner, insideBlocks.store.ancestor? ⟨2⟩ 1 = some owner
        ∧ (insideBlocks.store.local? owner "a").isSome := by
  have hassigned : insideBlocks.hops[2]? = some 1 := by decide +kernel
  obtain ⟨owner, howner, hbound, -⟩ := assignments_overwrite happens_selfAssignment
    evaluate_insideBlocks hassigned nestedBlocks_other
  exact ⟨happens_selfAssignment, evaluate_insideBlocks, hassigned, nestedBlocks_other, owner, howner,
    hbound⟩

/-- The exception is real.  A global variable cannot be assigned to in its own initializer, a local
    one can. -/
example : ((start .unlimited).run 20 "var a = a = nil;").1.isOk = false
    ∧ ((start .unlimited).run 20 "{ var a = a = nil; }").1.isOk = true := by
  decide +kernel

end Session

end Treewalk
