import Treewalk.Proofs.Evaluation.Comparing
import Treewalk.Proofs.Session.Lookups

/-!
# Which method is called

**A method is looked for in the class declarations that a class came of, and bound to the right
instance.**  For a property of an instance these are the declarations of its class, and for `super`
those of the class that the superclass of the surrounding declaration was when it was executed.  A
frame of this very execution lies around the code, wherever and whenever it runs, and the frame one
step further inside is that of `this`.
-/

namespace Treewalk

open Run

/-- Looked up in a machine, the method was given in a new frame inside its own, which binds `this` to
    the instance.  Without a method the lookup failed. -/
def Finds (result : EStateM.Result Halt Machine Value) (m : Machine) (o : Instance) (name : Name) :
    Option Closure → Prop
  | some method => ∃ identity frame after,
    result = .ok (.function identity { method with frame }) after
      ∧ m.store.frames.size ≤ frame.index ∧ after.store.enclosing? frame = some method.frame
      ∧ after.store.local? frame "this" = some (.instance o)
  | none => result = .error (.failure (.fault ⟨name, .undefinedProperty name.text⟩)) m

theorem finds_methodOf {m : Machine} {k : ClassValue} {o : Instance} {name : Name}
    (hframe : ∀ method, k.findMethod? name.text = some method →
      method.frame.index < m.store.frames.size) :
    Finds (methodOf k o name m) m o name (k.findMethod? name.text) := by
  rcases hfind : k.findMethod? name.text with _ | method
  · simp only [Finds, methodOf, hfind]
    rfl
  · have hlt := hframe method hfind
    have hnew := Store.child_lt_size m.store method.frame
    simp only [Finds, methodOf, hfind]
    refine ⟨m.identities, (m.store.child method.frame).1, _, rfl, Nat.le_refl _, ?_, ?_⟩
    · exact (Store.enclosing?_define ..).trans (Store.enclosing?_child_self hlt)
    · exact Store.local?_define_self hnew _ _

section Places

variable {c : Scene} {chart : Chart} {initialized : Option String} {scopes : List Scope}
variable {shapes : List Shape} {m : Machine}

theorem ClassValue.Charted.finds {k : ClassValue} (hk : k.Charted c chart m.store)
    (hm : m.Charted c chart) {o : Instance} {name : Name} :
    ∃ lineage, Lineage c.happened k lineage
      ∧ Finds (methodOf k o name m) m o name (dispatch lineage name.text) := by
  obtain ⟨lineage, hlineage⟩ := hk.lineage
  refine ⟨lineage, hlineage, ?_⟩
  rw [← hlineage.findMethod?]
  refine finds_methodOf fun method hfind => ?_
  obtain ⟨scopes, shapes, declaration, -, hfits, -⟩ := hk.findMethod? hfind
  exact hfits.lt_size hm.sound.size

/-- Around the methods of a class with a superclass, `super` is the superclass that was found when
    the declaration was executed, and `this` an instance. -/
theorem Machine.At.super (hm : m.At c chart initialized scopes shapes) {declaration : ClassDecl}
    (hwithin : innermostClass shapes = some declaration)
    (hderived : declaration.superclass.isSome = true) {id : Nat} (hplaced : SuperPlaced c.table scopes id) :
    ∃ inner before parent o, m.hops[id]? = some (inner + 1)
      ∧ Executed c.happened declaration before
      ∧ superclassOf declaration.superclass before = .ok (some parent) before
      ∧ parent.Charted c chart m.store
      ∧ m.store.ancestor? m.current (inner + 1) = some (declaration.methodFrame before)
      ∧ m.store.getAt m.current (inner + 1) "super" = .ok (.class parent)
      ∧ m.store.getAt m.current inner "this" = .ok (.instance o)
      ∧ m.store.get? m.current "this" = some (.instance o) := by
  obtain ⟨inner, hhops, hsuper, hreadySuper, hreadyThis⟩ := hplaced
  obtain ⟨found, hfound, -, hgetThis, hgetSuper, hbefore⟩ :=
    hm.stands.shaped.super_shapes hwithin hderived
  have hinner : inner = found := Nat.succ.inj (Option.some.inj (hsuper.symm.trans hfound))
  subst hinner
  obtain ⟨owner, value, howner, hlocal, hget⟩ := hm.stands.fits.getAt hreadySuper
  obtain ⟨owner', value', howner', hlocal', hget'⟩ := hm.stands.fits.getAt hreadyThis
  obtain ⟨around, outer, haround, hlabel⟩ := hm.charted.ancestor? hm.stands.chain hgetSuper
  obtain ⟨around', outer', haround', hlabel'⟩ := hm.charted.ancestor? hm.stands.chain hgetThis
  cases howner.symm.trans haround
  cases howner'.symm.trans haround'
  obtain ⟨-, parent, before, rfl, hexecuted, hparent, rfl⟩ :=
    hm.charted.admits owner _ outer hlabel _ _ hlocal
  obtain ⟨-, o, rfl⟩ := hm.charted.admits owner' _ outer' hlabel' _ _ hlocal'
  refine ⟨inner, before, parent, o, ?_, hexecuted, hparent, ?_, howner, hget, hget', ?_⟩
  · rw [hm.charted.hops, hhops]
  · exact hm.charted.bound _ _ _ hlocal
  · have howns : m.store.owner? m.current "this" = some owner' := by
      refine hm.charted.owner? hm.stands.chain (List.getElem?_eq_some_iff.mp hgetThis).1
        (fun k hk shape hshape hdeclares => ?_) howner' (by rw [hlocal']; rfl)
      obtain ⟨texts, rfl⟩ := hbefore k hk shape hshape
      exact (hm.stands.shaped.isUnreserved_of_mem (List.mem_of_getElem? hshape) hdeclares).ne_this rfl
    rw [Store.get?, howns]
    exact hlocal'

theorem superMethod_of_getAt {id line inner : Nat} {method : Name} {parent : ClassValue}
    {o : Instance} (hhops : m.hops[id]? = some (inner + 1))
    (hsuper : m.store.getAt m.current (inner + 1) "super" = .ok (.class parent))
    (hthis : m.store.getAt m.current inner "this" = .ok (.instance o)) :
    superMethod line id method m = methodOf parent o method m := by
  have hread : hopsOf id m = .ok (some (inner + 1)) m := by rw [← hhops]; rfl
  unfold superMethod
  rw [bind_of_ok hread]
  simp only
  rw [bind_of_ok (readAt_of_ok hsuper)]
  simp only
  rw [bind_of_ok (readAt_of_ok hthis)]

end Places

/-! ### Evaluating properties and `super` -/

/-- Reading a property of an instance without such a field is looking for a method. -/
theorem Run.evaluate_get_of_none {object : Expr} {name : Name} {n : Nat} {m after : Machine}
    {o : Instance} (hobject : evaluate n object m = .ok (.instance o) after)
    (hfield : after.store.field? o name.text = none) :
    evaluate (n + 1) (.get object name) m = methodOf o.ofClass o name after := by
  rw [evaluate, bind_of_ok hobject]
  exact property_of_none hfield

theorem Run.evaluate_super (n line id : Nat) (method : Name) :
    evaluate (n + 1) (.super line id method) = superMethod line id method := by
  rw [evaluate]

namespace Session

variable {outside : Outside} {history : List Request}

/-- The class around a place of `super` is known from the number of the reference. -/
theorem mentionsSuperIn_unique {declaration other : ClassDecl} {id : Nat}
    (h : ∃ program ∈ (start outside).programs history, program.MentionsSuperIn declaration id)
    (hother : ∃ program ∈ (start outside).programs history, program.MentionsSuperIn other id) :
    other = declaration := by
  have hsame : Mention.super (some other) id = .super (some declaration) id :=
    mention_unique hother h rfl
  cases hsame
  rfl

/-- What is known of `super` in a history: it stands in a class with a superclass. -/
theorem derived_of_known {table : HopTable} {kept : Nat → Prop} {within : Option ClassDecl} {id : Nat}
    (hknown : (scene outside history table kept).known (.super within id)) :
    ∃ declaration, within = some declaration ∧ declaration.superclass.isSome = true
      ∧ ∃ program ∈ (start outside).programs history, program.MentionsSuperIn declaration id := by
  rcases hknown with ⟨program, hprogram, hmention⟩ | ⟨_, _, hfree⟩
  · obtain ⟨declaration, rfl, hderived⟩ := supersDerived_of_mem hprogram within id hmention
    exact ⟨declaration, rfl, hderived, program, hprogram, hmention⟩
  · cases hfree

/-- **Methods are found in the declarations that the classes came of, and bound to the instance.**  A
    property that is no field is the method that the lineage of the class says.  Through `super` comes
    the method that the lineage of the superclass says: of the class whose declaration stands around
    the reference, in the execution of it that made the frame around the code.  Either is bound to the
    instance, and `super` to the one that `this` means. -/
theorem methods_dispatch (outside : Outside) (history : List Request) :
    (∀ {object : Expr} {name : Name} {n : Nat} {m after : Machine} {o : Instance},
        Happens outside history ⟨.evaluate (.get object name), n + 1, m⟩ →
        Run.evaluate n object m = .ok (.instance o) after → after.store.field? o name.text = none →
        ∃ lineage, Lineage (Happens outside history) o.ofClass lineage
          ∧ Finds (Run.evaluate (n + 1) (.get object name) m) after o name
            (dispatch lineage name.text))
      ∧ ∀ {line id n : Nat} {method : Name} {m : Machine},
        Happens outside history ⟨.evaluate (.super line id method), n + 1, m⟩ →
        ∃ declaration before parent lineage hops o,
          (∃ program ∈ (start outside).programs history, program.MentionsSuperIn declaration id)
          ∧ (∀ other, (∃ program ∈ (start outside).programs history,
            program.MentionsSuperIn other id) → other = declaration)
          ∧ Executed (Happens outside history) declaration before
          ∧ superclassOf declaration.superclass before = .ok (some parent) before
          ∧ m.hops[id]? = some hops
          ∧ m.store.ancestor? m.current hops = some (declaration.methodFrame before)
          ∧ m.store.get? m.current "this" = some (.instance o)
          ∧ Lineage (Happens outside history) parent lineage
          ∧ Finds (Run.evaluate (n + 1) (.super line id method) m) m o method
            (dispatch lineage method.text) := by
  refine ⟨fun h hobject hfield => ?_, fun h => ?_⟩
  · obtain ⟨table, kept, chart, hmoment⟩ := h.charted
    obtain ⟨initialized, scopes, shapes, hm, hs⟩ := hmoment.task
    have hclosed := closed_happens outside history
    obtain ⟨later, hafter, ho⟩ := hm.evaluate hclosed hs.get (hclosed h .getObject) hobject
    obtain ⟨lineage, hlineage, hfinds⟩ := ClassValue.Charted.finds ho hafter.charted
    rw [evaluate_get_of_none hobject hfield]
    exact ⟨lineage, hlineage, hfinds⟩
  · obtain ⟨table, kept, chart, hmoment⟩ := h.charted
    obtain ⟨initialized, scopes, shapes, hm, hs⟩ := hmoment.task
    obtain ⟨hplaced, hknown⟩ := hs.super
    obtain ⟨declaration, hwithin, hderived, hmention⟩ := derived_of_known hknown
    obtain ⟨inner, before, parent, o, hhops, hexecuted, hparent, hcharted, hframe, hsuper, hget,
      hthis⟩ := hm.super hwithin hderived hplaced
    obtain ⟨lineage, hlineage, hfinds⟩ := hcharted.finds hm.charted
    rw [evaluate_super, superMethod_of_getAt hhops hsuper hget]
    exact ⟨declaration, before, parent, lineage, inner + 1, o, hmention,
      fun other hother => mentionsSuperIn_unique hmention hother, hexecuted, hparent, hhops, hframe,
      hthis, hlineage, hfinds⟩

/-- A class, and one derived from it whose method calls the one that it hides. -/
def overriding : String :=
  "class A { m() {} } class B < A { m() { super.m(); } }"

/-- The method that hides the other. -/
def hidingMethod : FunctionDecl :=
  ⟨⟨"m", 1⟩, [], [.expression (.call (.super 1 1 ⟨"m", 1⟩) 1 [])]⟩

/-- The class that is derived from the other. -/
def derivedClass : ClassValue :=
  ⟨⟨1, "B", (∅ : Std.ExtTreeMap String Closure).insert "m" ⟨hidingMethod, ⟨1⟩, false⟩⟩,
    [⟨0, "A", (∅ : Std.ExtTreeMap String Closure).insert "m" ⟨⟨⟨"m", 1⟩, [], []⟩, ⟨0⟩, false⟩⟩]⟩

/-- The method is read off a new instance. -/
def readMethod : Expr :=
  .get (.call (.variable ⟨"B", 1⟩ 2) 1 []) ⟨"m", 1⟩

/-- The session in which the classes are declared. -/
def overridden : Session :=
  (start .unlimited).afterAll [.run 20 overriding]

/-- The machine in which the method begins to run. -/
def insideMethod : Machine :=
  { left (callFrame ⟨hidingMethod, ⟨2⟩, false⟩ [])
      (left (Run.evaluate 19 readMethod) (overridden.machine.learn ∅)) with current := ⟨3⟩ }

theorem happens_readMethod :
    Happens .unlimited [.run 20 overriding, .evaluate 20 "B().m()"]
      ⟨.evaluate (.call readMethod 1 []), 20, overridden.machine.learn ∅⟩ := by
  have hnext : overridden.nextId = 2 := by decide +kernel
  have hreads : ReadsExpression "B().m()" overridden.nextId (.call readMethod 1 []) 3 := by
    rw [hnext]
    exact ⟨by decide +kernel,
      ⟨(Cursor.start (tokens "B().m()") 2).expression.2.2, by decide +kernel,
        by decide +kernel⟩,
      by decide +kernel⟩
  have hbegins := Begins.evaluate hreads 20
  rw [(Expr.bindings_unrecorded _).1] at hbegins
  exact ⟨[.run 20 overriding], _, [], _, rfl, hbegins, .refl⟩

theorem happens_insideMethod :
    Happens .unlimited [.run 20 overriding, .evaluate 20 "B().m()"]
      ⟨.evaluate (.super 1 1 ⟨"m", 1⟩), 14, insideMethod⟩ := by
  have hclosed := closed_happens .unlimited [.run 20 overriding, .evaluate 20 "B().m()"]
  have hbound : Run.evaluate 19 readMethod (overridden.machine.learn ∅)
      = .ok (.function 2 ⟨hidingMethod, ⟨2⟩, false⟩)
        (left (Run.evaluate 19 readMethod) (overridden.machine.learn ∅)) :=
    eq_ok_left (by decide +kernel)
  have hcall := hclosed happens_readMethod (.call hbound rfl)
  have hframe : callFrame ⟨hidingMethod, ⟨2⟩, false⟩ []
      (left (Run.evaluate 19 readMethod) (overridden.machine.learn ∅))
        = .ok ⟨3⟩ (left (callFrame ⟨hidingMethod, ⟨2⟩, false⟩ [])
          (left (Run.evaluate 19 readMethod) (overridden.machine.learn ∅))) :=
    eq_ok_left (by decide +kernel)
  have hbody := hclosed (hclosed hcall (.function rfl)) (.body hframe)
  exact hclosed (hclosed (hclosed hbody .head) .expression) .callee

/-- A method calls the one that it hides. -/
theorem methods_dispatch_super :
    (∃ o after, Run.evaluate 18 (.call (.variable ⟨"B", 1⟩ 2) 1 []) (overridden.machine.learn ∅)
        = .ok (.instance o) after
      ∧ after.store.field? o "m" = none
      ∧ ∃ lineage,
        Lineage (Happens .unlimited [.run 20 overriding, .evaluate 20 "B().m()"]) o.ofClass lineage
        ∧ Finds (Run.evaluate 19 readMethod (overridden.machine.learn ∅)) after o ⟨"m", 1⟩
          (dispatch lineage "m"))
      ∧ Happens .unlimited [.run 20 overriding, .evaluate 20 "B().m()"]
        ⟨.evaluate (.super 1 1 ⟨"m", 1⟩), 14, insideMethod⟩
      ∧ ∃ o lineage, insideMethod.store.get? ⟨3⟩ "this" = some (.instance o)
        ∧ Finds (Run.evaluate 14 (.super 1 1 ⟨"m", 1⟩) insideMethod) insideMethod o ⟨"m", 1⟩
          (dispatch lineage "m") := by
  refine ⟨?_, happens_insideMethod, ?_⟩
  · have hobject : Run.evaluate 18 (.call (.variable ⟨"B", 1⟩ 2) 1 []) (overridden.machine.learn ∅)
        = .ok (.instance ⟨0, derivedClass⟩)
          (left (Run.evaluate 18 (.call (.variable ⟨"B", 1⟩ 2) 1 []))
            (overridden.machine.learn ∅)) := eq_ok_left (by decide +kernel)
    have hfield : (left (Run.evaluate 18 (.call (.variable ⟨"B", 1⟩ 2) 1 []))
        (overridden.machine.learn ∅)).store.field? ⟨0, derivedClass⟩ "m" = none := by
      decide +kernel
    have hread := closed_happens _ _ happens_readMethod .callee
    obtain ⟨lineage, hlineage, hfinds⟩ := (methods_dispatch _ _).1 hread hobject hfield
    exact ⟨_, _, hobject, hfield, lineage, hlineage, hfinds⟩
  · obtain ⟨declaration, before, parent, lineage, hops, o, -, -, -, -, -, -, hthis, -, hfinds⟩ :=
      (methods_dispatch _ _).2 happens_insideMethod
    exact ⟨o, lineage, hthis, hfinds⟩

end Session

end Treewalk
