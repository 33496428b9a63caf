import Treewalk.Proofs.Evaluation.SoundRuns
import Treewalk.Proofs.Evaluation.Watching

/-!
# Situated code keeps to its chart

**A situated part of a program leaves every frame in the shape that the source gives it.**  The
induction is on the number of steps, as it is for soundness.  New frames get their shapes here: those
of blocks and calls the names that the source declares in them, those of bound methods and of classes
the class.  For a class it counts that its declaration has been executed, so all that a part of the
program starts has to have happened as well.
-/

namespace Treewalk

theorem Value.Plain.charted {c : Scene} {chart : Chart} {s : Store} {value : Value}
    (h : value.Plain) : value.Charted c chart s := by
  cases value <;> trivial

namespace Run

variable {c : Scene} {chart : Chart} {initialized : Option String} {scopes : List Scope}
variable {shapes : List Shape} {m : Machine}

/-! ### Names -/

theorem charts_read (hm : m.Charted c chart) (name : Name) (id : Nat) :
    Charts c chart (read name id) m fun later value after => value.Charted c later after.store := by
  rcases hread : read name id m with ⟨value, after⟩ | ⟨halt, after⟩
  · obtain ⟨rfl, f, hfound⟩ := read_ok hread
    exact charts_of_ok hread (List.prefix_refl chart) hm (hm.bound f _ value hfound)
  · cases read_error hread
    exact charts_of_error hread hm

/-- A name is bound in the current frame, which may bind it. -/
theorem charts_define (hm : m.Charted c chart) {f : FrameId} {name : String} {value : Value}
    (hadmits : ∀ shape outer, chart[f.index]? = some (shape, some outer) →
      shape.Admits c.happened f name value)
    (hvalue : value.Charted c chart (m.store.define f name value)) :
    Charts c chart (define f name value) m fun later _ _ => chart = later :=
  charts_of_ok rfl (List.prefix_refl chart) (hm.define hadmits hvalue) rfl

/-- An assignment never gives a frame a name that its shape does not have. -/
theorem charts_assign (hm : m.At c chart initialized scopes shapes) {name : Name} {id : Nat}
    (hhops : c.table[id]? = hopsIn scopes name.text) (hunreserved : IsUnreserved name.text)
    {value : Value} (hvalue : value.Charted c chart m.store) :
    Charts c chart (assign name id value) m fun _ _ _ => True := by
  rcases hassign : assign name id value m with ⟨_, after⟩ | ⟨halt, after⟩
  · obtain ⟨owner, rfl, howner⟩ := assign_ok hassign
    refine charts_of_ok hassign (List.prefix_refl chart) (hm.charted.define ?_ ?_) trivial
    · intro shape outer hshape
      rw [hm.charted.hops, hhops] at howner
      rcases hfound : hopsIn scopes name.text with _ | hops
      · rw [hfound] at howner
        exact absurd howner (hm.charted.ne_globals hshape)
      · rw [hfound] at howner
        obtain ⟨declaring, hget, hdeclares⟩ := hm.stands.shaped.declares_of_hopsIn hfound
        obtain ⟨found, around, hancestor, hlabel⟩ := hm.charted.ancestor? hm.stands.chain hget
        obtain ⟨texts, rfl, htext⟩ := Shaped.names_of_declares hdeclares hunreserved
        cases hancestor.symm.trans howner
        cases hlabel.symm.trans hshape
        exact htext
    · exact hvalue.mono (List.prefix_refl chart) (.define _ _ _ _)
  · cases assign_error hassign
    exact charts_of_error hassign hm.charted

/-! ### Methods and instances -/

theorem charts_functionValue (hm : m.Charted c chart) {f : Closure}
    (hf : f.Charted c chart m.store) :
    Charts c chart (functionValue f) m fun later value after =>
      value.Charted c later after.store :=
  charts_of_ok rfl (List.prefix_refl chart) (hm.of_store_eq rfl rfl) hf

/-- The frame of a bound method has the shape of the scope of `this`. -/
theorem charts_bindMethod (hm : m.Charted c chart) {method : Closure} {o : Instance}
    (hmethod : method.ChartedMethod c chart m.store) (ho : o.ofClass.Charted c chart m.store) :
    Charts c chart (bindMethod method o) m fun later f after => f.Charted c later after.store := by
  obtain ⟨scopes, shapes, declaration, hchain, hfits, hshaped, hdefined, hsituated⟩ := hmethod
  have hsize : 0 < m.store.frames.size := hm.sound.size
  have hchild := hm.child (hfits.lt_size hsize) (.this declaration)
  have hprefix := chart.prefix_withChild (.this declaration) method.frame
  have hgrows := (Store.Grows.child m.store method.frame).trans
    (.define _ (m.store.child method.frame).1 "this" (.instance o))
  have hafter : ((m.allocate fun store => store.child method.frame).2.mapStore fun store =>
      store.define (m.store.child method.frame).1 "this" (.instance o)).Charted c
        (chart.withChild (.this declaration) method.frame) := by
    refine hchild.define (fun shape outer hshape => ?_) (ho.mono hprefix hgrows)
    rw [hm.label_child] at hshape
    cases hshape
    exact ⟨rfl, o, rfl⟩
  refine charts_of_ok rfl hprefix hafter
    ⟨thisScope :: scopes, .this declaration :: shapes, ⟨hm.chain_child hchain _, ?_, hshaped⟩,
      hdefined, hsituated, ?_⟩
  · exact hfits.childDefine hsize "this" (.instance o)
  · exact fun _ => ⟨thisScope, rfl, by simp [thisScope]⟩

theorem charts_methodOf (hm : m.Charted c chart) {k : ClassValue} {o : Instance}
    (hk : k.Charted c chart m.store) (ho : o.ofClass.Charted c chart m.store) (name : Name) :
    Charts c chart (methodOf k o name) m fun later value after =>
      value.Charted c later after.store := by
  unfold methodOf
  rcases hfind : k.findMethod? name.text with _ | method
  · exact charts_fault hm name _
  · refine (charts_bindMethod hm (hk.findMethod? hfind) ho).bind
      (sound_bindMethod hm.sound (hk.sound.findMethod? hfind) ho.sound) ?_
    intro later f after _ _ hafter _ _ hf
    exact charts_functionValue hafter hf

theorem field?_eq {m : Machine} {o : Instance} {name : String} {found : Option Value}
    (h : m.store.field? o name = found) : field? o name m = .ok found m := by
  rw [field?, h]

/-- Where there is no field, a property is a method. -/
theorem property_of_none {m : Machine} {o : Instance} {name : Name}
    (h : m.store.field? o name.text = none) :
    property o name m = methodOf o.ofClass o name m := by
  rw [property, bind_of_ok (field?_eq h)]

theorem property_of_some {m : Machine} {o : Instance} {name : Name} {value : Value}
    (h : m.store.field? o name.text = some value) : property o name m = .ok value m := by
  rw [property, bind_of_ok (field?_eq h)]
  rfl

theorem charts_property (hm : m.Charted c chart) {o : Instance}
    (ho : o.ofClass.Charted c chart m.store) (name : Name) :
    Charts c chart (property o name) m fun later value after =>
      value.Charted c later after.store := by
  rcases hfield : m.store.field? o name.text with _ | value
  · have hmethod := charts_methodOf hm ho ho name
    unfold Charts at hmethod ⊢
    rw [property_of_none hfield]
    exact hmethod
  · exact charts_of_ok (property_of_some hfield) (List.prefix_refl chart) hm
      (hm.fields o name.text value hfield)

theorem charts_readAt (hm : m.Charted c chart) (hops : Nat) (name : String) :
    Charts c chart (readAt hops name) m fun later value after =>
      value.Charted c later after.store := by
  rcases hget : m.store.getAt m.current hops name with breach | value
  · exact charts_of_error (readAt_of_error hget) hm
  · obtain ⟨owner, -, hlocal⟩ := Store.local?_of_getAt hget
    exact charts_of_ok (readAt_of_ok hget) (List.prefix_refl chart) hm (hm.bound owner name value hlocal)

theorem charts_superMethod (hm : m.At c chart initialized scopes shapes) {id : Nat}
    (hplaced : SuperPlaced c.table scopes id) (line : Nat) (method : Name) :
    Charts c chart (superMethod line id method) m fun later value after =>
      value.Charted c later after.store := by
  obtain ⟨inner, hhops, -, hsuper, hthis⟩ := hplaced
  unfold superMethod
  refine (charts_of_ok rfl (List.prefix_refl chart) hm.charted rfl :
    Charts c chart (hopsOf id) m fun later _ _ => chart = later).bind
      (sound_hopsOf hm.charted.sound id) ?_
  rintro _ _ _ - - - - ⟨rfl, rfl⟩ rfl
  rw [hhops]
  have hfits := hm.stands.fits
  refine (charts_readAt hm.charted (inner + 1) "super").bind
    (sound_readAt hm.charted.sound hfits hsuper) ?_
  rintro later parent _ - - hm' - ⟨-, rfl⟩ hparent
  cases parent with
  | «class» superclass =>
    refine (charts_readAt hm' inner "this").bind (sound_readAt hm'.sound hfits hthis) ?_
    rintro last receiver _ - hlast hm'' - ⟨-, rfl⟩ hreceiver
    cases receiver with
    | «instance» o =>
      exact charts_methodOf hm'' (hparent.mono hlast (.refl _)) hreceiver method
    | _ => exact charts_fault hm'' _ _
  | _ => exact charts_fault hm' _ _

theorem charts_setField (hm : m.Charted c chart) (o : Instance) (name : String) {value : Value}
    (hvalue : value.Charted c chart m.store) :
    Charts c chart (setField o name value) m fun _ _ _ => True :=
  charts_of_ok rfl (List.prefix_refl chart) (hm.setField o name hvalue) trivial

theorem charts_write (hm : m.Charted c chart) (text : String) :
    Charts c chart (write text) m fun _ _ _ => True := by
  by_cases hfits : m.sink.hasRoom text.toUTF8.size = true
  · exact charts_of_ok (if_pos hfits) (List.prefix_refl chart) (hm.of_store_eq rfl rfl) trivial
  · exact charts_of_error (if_neg hfits) (hm.of_store_eq rfl rfl)

/-- A new instance has no fields, and its class is known. -/
theorem charts_newInstance (hm : m.Charted c chart) {k : ClassValue}
    (hk : k.Charted c chart m.store) :
    Charts c chart (newInstance k) m fun later o after =>
      o.ofClass.Charted c later after.store := by
  have hgrows : m.store.Grows (m.store.newInstance k).2 := .of_frames_eq rfl
  exact charts_of_ok rfl (List.prefix_refl chart) (hm.newInstance k)
    (hk.mono (List.prefix_refl chart) hgrows)

/-! ### Frames of blocks and calls -/

/-- The frame of a block has the names that the statements of the block declare. -/
theorem charts_blockFrame (hm : m.At c chart none scopes shapes) {body : List Stmt}
    (hshaped : Shaped c.distinct (∅ :: scopes) (.names (ownNames body) :: shapes)) :
    Charts c chart blockFrame m fun later frame after =>
      Machine.At c later none (∅ :: scopes) (.names (ownNames body) :: shapes)
        { after with current := frame } := by
  have hchild := hm.charted.child hm.lt_size (.names (ownNames body))
  refine charts_of_ok rfl (chart.prefix_withChild (.names (ownNames body)) m.current) hchild
    ⟨hchild.of_store_eq rfl rfl, ⟨?_, ?_, hshaped⟩, ?_⟩
  · exact hm.charted.chain_child hm.stands.chain _
  · exact hm.stands.fits.child hm.charted.sound.size
  · exact (AllDefined.cons (fun text standing h => by simp at h) hm.ready.allDefined).readyBut none

theorem charts_bindParams {frame : FrameId} : ∀ {params : List Name} {args : List Value}
    {m : Machine}, m.Charted c chart → (∀ value ∈ args, value.Charted c chart m.store) →
    (∀ param ∈ params, ∀ shape outer, chart[frame.index]? = some (shape, some outer) →
      ∀ value, shape.Admits c.happened frame param.text value) →
    args.length = params.length → m.store.Fits frame scopes →
    Charts c chart (bindParams frame params args) m fun later _ _ => chart = later
  | [], [], m, hm, _, _, _, _ => charts_pure hm rfl
  | param :: params, argument :: args, m, hm, hargs, hadmits, hlength, hfits => by
    rw [bindParams]
    have hargument := (hargs argument List.mem_cons_self).mono (List.prefix_refl chart)
      (.define m.store frame param.text argument)
    have hdefine := fun shape outer h => hadmits param List.mem_cons_self shape outer h argument
    refine (charts_define hm hdefine hargument).bind
      (sound_define hm.sound frame param.text hargument.sound) ?_
    rintro later _ after - - hafter hlater - rfl
    refine charts_bindParams hafter (fun value hvalue => ?_)
      (fun param hparam => hadmits param (List.mem_cons_of_mem _ hparam)) (by simpa using hlength)
      (hfits.mono hlater.1)
    exact (hargs value (List.mem_cons_of_mem _ hvalue)).mono (List.prefix_refl chart) hlater.1

/-- The frame of a call has the parameters and the names that the body declares. -/
theorem charts_callFrame (hm : m.Charted c chart) {f : Closure} {args : List Value}
    (hargs : ∀ value ∈ args, value.Charted c chart m.store) (hlength : args.length = f.arity)
    (hstands : StandsFor c chart m.store f.frame scopes shapes) (hdefined : AllDefined scopes)
    (hsituated : f.declaration.Situated c.toSetting scopes shapes) :
    Charts c chart (callFrame f args) m fun later frame after =>
      Machine.At c later none (paramScope f.declaration.params :: scopes)
        (.names f.declaration.scopeNames :: shapes) { after with current := frame } := by
  have hsize := hm.sound.size
  have hchild := hm.child (hstands.fits.lt_size hsize) (.names f.declaration.scopeNames)
  have hprefix := chart.prefix_withChild (.names f.declaration.scopeNames) f.frame
  have hgrows := Store.Grows.child m.store f.frame
  unfold callFrame
  refine (charts_of_ok (a := (m.store.child f.frame).1) rfl hprefix hchild ⟨rfl, rfl⟩ :
    Charts c chart (child f.frame) m fun later frame _ =>
      chart.withChild (.names f.declaration.scopeNames) f.frame = later
        ∧ frame = (m.store.child f.frame).1).bind (sound_child hm.sound f.frame) ?_
  rintro _ _ middle - - hmiddle hlater ⟨-, hstore⟩ ⟨rfl, rfl⟩
  have hargs' := fun value hvalue => (hargs value hvalue).mono hprefix hlater.1
  have hfits : middle.store.Fits (m.store.child f.frame).1 (∅ :: scopes) := by
    rw [hstore]
    exact hstands.fits.child hsize
  refine (charts_bindParams hmiddle hargs' ?_ hlength hfits).bind
    (sound_bindParams hmiddle.sound (fun value hvalue => (hargs' value hvalue).sound) hlength hfits) ?_
  · intro param hparam shape outer hshape value
    rw [hm.label_child] at hshape
    cases hshape
    exact List.mem_append_left _ (List.mem_map_of_mem hparam)
  · rintro _ _ after - - hafter - hfits' rfl
    refine charts_pure hafter ⟨hafter.of_store_eq rfl rfl, ⟨?_, hfits', ?_⟩, ?_⟩
    · exact hm.chain_child hstands.chain _
    · exact (hsituated.body hstands.shaped).2
    · exact (AllDefined.cons (allDefined_paramScope _) hdefined).readyBut none

/-! ### Declarations -/

theorem charts_declareFunction (hm : m.At c chart none scopes shapes) {declaration : FunctionDecl}
    (h : (Stmt.function declaration).Situated c.toSetting scopes shapes) :
    Charts c chart (declareFunction declaration) m fun _ _ _ => True := by
  have howns := h.owned declaration.name.text rfl
  have hfunction : (Value.function m.identities ⟨declaration, m.current, false⟩).Charted c chart
      (m.store.define m.current declaration.name.text
        (.function m.identities ⟨declaration, m.current, false⟩)) :=
    ⟨_, shapes, hm.stands.define hm.lt_size howns _, hm.ready.allDefined.putName _, h.function,
      fun hinit => by cases hinit⟩
  have hafter := hm.charted.define (hm.stands.admits hm.charted howns _) hfunction
  exact charts_of_ok rfl (List.prefix_refl chart) (hafter.of_store_eq rfl rfl) trivial

/-- The frame around the methods of a class: with a superclass it binds `super` and belongs to
    this execution of the declaration. -/
theorem charted_storeWithin (hm : m.At c chart none scopes shapes) {declaration : ClassDecl}
    (howns : Owns shapes declaration.name.text)
    (hexecuted : Executed c.happened declaration m) {parent : Option ClassValue}
    (hparent : superclassOf declaration.superclass m = .ok parent m)
    (hcharted : ∀ k, parent = some k → k.Charted c chart m.store) :
    ∃ later : Chart, chart <+: later
      ∧ Machine.Charted c later { m with store := declaration.storeWithin m parent }
      ∧ later.Chain (declaration.methodFrame m) (methodShapes declaration shapes).tail
      ∧ (declaration.storeWithin m parent).Fits (declaration.methodFrame m)
        (methodScopes declaration.superclass.isSome
          (putName declaration.name.text .defined scopes)).tail := by
  have hbound := hm.charted.define (hm.stands.admits hm.charted howns .nil) trivial
  have hstands := hm.stands.define hm.lt_size howns .nil
  obtain ⟨-, hsome, -⟩ := superclassOf_ok hparent
  rcases parent with _ | parent
  · have hnone : declaration.superclass.isSome = false := hsome.symm
    simp only [ClassDecl.methodFrame, methodShapes, methodScopes, hnone, List.tail_cons,
      Bool.false_eq_true, if_false]
    exact ⟨chart, List.prefix_refl chart, hbound, hstands.chain, hstands.fits⟩
  · have hderived : declaration.superclass.isSome = true := hsome.symm
    let bound : Machine := m.mapStore fun store => store.define m.current declaration.name.text .nil
    have hlt : m.current.index < bound.store.frames.size :=
      Nat.lt_of_lt_of_le hm.lt_size (Store.Grows.define _ _ _ _).size
    have hframe : declaration.methodFrame m = (bound.store.child m.current).1 := by
      refine (if_pos hderived).trans (FrameId.ext ?_)
      rw [Store.child_index]
      exact (Store.size_define ..).symm
    have hprefix := chart.prefix_withChild (.super declaration) m.current
    have hgrows := (Store.Grows.define m.store m.current declaration.name.text .nil).trans
      ((Store.Grows.child bound.store m.current).trans
        (.define _ (bound.store.child m.current).1 "super" (.class parent)))
    have hcharted' : (Value.class parent).Charted c (chart.withChild (.super declaration) m.current)
        (declaration.storeWithin m (some parent)) :=
      ClassValue.Charted.mono hprefix hgrows (hcharted parent rfl)
    refine ⟨chart.withChild (.super declaration) m.current, hprefix,
      (hbound.child hlt (.super declaration)).define (f := (bound.store.child m.current).1) ?_ hcharted',
      ?_, ?_⟩
    · intro shape outer hshape
      rw [hbound.label_child] at hshape
      cases hshape
      exact ⟨rfl, parent, m, rfl, hexecuted, hparent, hframe.symm⟩
    · simp only [methodShapes, hderived, List.tail_cons, if_true, hframe]
      exact hbound.chain_child hstands.chain _
    · simp only [methodScopes, hderived, List.tail_cons, if_true, hframe]
      exact hstands.fits.childDefine hbound.sound.size "super" (.class parent)

/-- A class has the lineage of its superclass, with its own declaration in front. -/
theorem charted_classValue {later : Chart} {s : Store} {declaration : ClassDecl}
    {parent : Option ClassValue} (hexecuted : Executed c.happened declaration m)
    (hparent : superclassOf declaration.superclass m = .ok parent m)
    (hcharted : ∀ k, parent = some k → k.Charted c later s)
    (hmethods : ∀ method ∈ declaration.methods,
      (Closure.ofMethod (declaration.methodFrame m) method).ChartedMethod c later s) :
    (declaration.value m parent).Charted c later s := by
  have hown : ∀ (name : String) (method : Closure),
      (declaration.value m parent).own.methods[name]? = some method →
      method.ChartedMethod c later s := by
    intro name method hmethod
    obtain ⟨found, hmem, -, rfl⟩ := exists_of_methodTable hmethod
    exact hmethods found hmem
  rcases parent with _ | parent
  · refine ⟨⟨_, .root hexecuted hparent⟩, fun layer hlayer => ?_⟩
    rcases List.mem_singleton.mp hlayer with rfl
    exact hown
  · obtain ⟨⟨lineage, hlineage⟩, hlayers⟩ := hcharted parent rfl
    refine ⟨⟨_, .derived hexecuted hparent hlineage⟩, fun layer hlayer => ?_⟩
    rcases List.mem_cons.mp hlayer with rfl | hlayer
    · exact hown
    · exact hlayers layer hlayer

theorem charts_declareClass (hm : m.At c chart none scopes shapes) {declaration : ClassDecl}
    (h : (Stmt.class declaration.name declaration.superclass declaration.methods).Situated
      c.toSetting scopes shapes) (hexecuted : Executed c.happened declaration m) :
    Charts c chart (declareClass declaration.name declaration.superclass declaration.methods) m
      fun _ _ _ => True := by
  have howns := h.owned declaration.name.text rfl
  rcases hparent : superclassOf declaration.superclass m with ⟨parent, middle⟩ | ⟨halt, middle⟩
  · obtain ⟨rfl, -, hfound⟩ := superclassOf_ok hparent
    have hcharted : ∀ k, parent = some k → k.Charted c chart middle.store := by
      intro k hk
      obtain ⟨f, name, hlocal⟩ := hfound k hk
      exact hm.charted.bound f name _ hlocal
    obtain ⟨later, hchart, hwithin, hchain, hfits⟩ :=
      charted_storeWithin hm howns hexecuted hparent hcharted
    have hgrows := declaration.grows_storeWithin middle parent
    have hgrows' := hgrows.trans (.define _ middle.current declaration.name.text
      (.class (declaration.value middle parent)))
    have hvalue : (Value.class (declaration.value middle parent)).Charted c later
        (declaration.storeAfter middle parent) := by
      refine charted_classValue hexecuted hparent
        (fun k hk => (hcharted k hk).mono hchart hgrows') fun method hmethod => ?_
      exact ⟨_, _, declaration, hchain, hfits.mono (.define _ _ _ _),
        (hm.stands.shaped.putName howns .defined).methods,
        allDefined_methodScopes _ (hm.ready.allDefined.putName _), h.method hmethod⟩
    have hstands := hm.stands.mono hchart hgrows
    exact charts_of_ok (declareClass_of_ok hparent hm.lt_size) hchart
      ((hwithin.define (hstands.admits hwithin howns _) hvalue).of_store_eq rfl rfl) trivial
  · cases superclassOf_error hparent
    exact charts_of_error (bind_of_error hparent) hm.charted

/-! ### Statements and expressions -/

/-- The place behind a statement that ends normally. -/
theorem at_scopesAfter {later : Chart} {s : Stmt} {after : Machine}
    (hm : m.At c chart none scopes shapes) (hs : s.Situated c.toSetting scopes shapes)
    (hchart : chart <+: later) (hafter : after.Charted c later)
    (hlater : m.store.Grows after.store ∧ after.current = m.current)
    (hfits : after.store.Fits after.current (s.scopesAfter scopes)) :
    after.At c later none (s.scopesAfter scopes) shapes where
  charted := hafter
  stands := by
    refine ⟨?_, hfits, Shaped.scopesAfter hs hm.stands.shaped⟩
    rw [hlater.2]
    exact hm.stands.chain.mono hchart
  ready := (hm.ready.allDefined.scopesAfter s).readyBut none

mutual

theorem charts_execute (hclosed : Moment.Closed c.happened) :
    ∀ (steps : Nat) (s : Stmt) {chart : Chart} {scopes : List Scope} {shapes : List Shape}
    {m : Machine}, m.At c chart none scopes shapes → s.Situated c.toSetting scopes shapes →
    c.happened ⟨.execute s, steps, m⟩ →
    Charts c chart (execute steps s) m fun later flow after => flow.Charted c later after.store
  | 0, _, _, _, _, _, hm, _, _ => charts_exhausted hm.charted
  | steps + 1, .expression value, chart, scopes, shapes, m, hm, hs, hh => by
    rw [execute]
    refine (charts_evaluate hclosed steps value hm hs.expression (hclosed hh .expression)).bind
      (sound_evaluate steps value hm.charted.sound hm.stands.fits hs.expression.placed) ?_
    intro _ _ _ _ _ hafter _ _ _
    exact charts_pure hafter trivial
  | steps + 1, .print value, chart, scopes, shapes, m, hm, hs, hh => by
    rw [execute]
    refine (charts_evaluate hclosed steps value hm hs.print (hclosed hh .print)).bind
      (sound_evaluate steps value hm.charted.sound hm.stands.fits hs.print.placed) ?_
    intro _ result _ _ _ hmiddle _ _ _
    refine (charts_write hmiddle _).bind (sound_write hmiddle.sound _) ?_
    intro _ _ _ _ _ hafter _ _ _
    exact charts_pure hafter trivial
  | steps + 1, .var name initializer, chart, scopes, shapes, m, hm, hs, hh => by
    rw [execute]
    have howns := hs.owned name.text rfl
    have hm' := hm.initializer howns
    refine (charts_evaluateOptional hclosed steps initializer hm' hs.var (hclosed hh .var)).bind
      (sound_evaluateOptional steps initializer hm'.charted.sound hm'.stands.fits
        fun result h => (hs.var result h).placed) ?_
    intro later value middle _ hchart hmiddle hlater _ hvalue
    have hplace := hm.after hchart hmiddle hlater
    exact (charts_of_ok rfl (List.prefix_refl later)
      (hmiddle.define (hplace.stands.admits hmiddle howns value)
        (hvalue.mono (List.prefix_refl later) (.define _ _ _ _))) trivial)
  | steps + 1, .block body, chart, scopes, shapes, m, hm, hs, hh => by
    obtain ⟨hbody, hshaped⟩ := hs.block hm.stands.shaped
    rw [execute, blockFrame_bind]
    refine (charts_blockFrame hm hshaped).bind (sound_blockFrame hm.charted.sound hm.stands.fits) ?_
    intro _ frame middle hframe _ _ _ _ hplace
    refine (charts_within (charts_executeAll hclosed steps body hplace hbody
      (hclosed hh (.block hframe)))).imp ?_
    rintro _ _ _ - ⟨inner, hflow, hstore⟩
    rw [← hstore]
    exact hflow
  | steps + 1, .ifElse condition thenBranch none, chart, scopes, shapes, m, hm, hs, hh => by
    rw [execute]
    obtain ⟨hcondition, hthen⟩ := hs.ifThen
    refine (charts_evaluate hclosed steps condition hm hcondition (hclosed hh .ifCondition)).bind
      (sound_evaluate steps condition hm.charted.sound hm.stands.fits hcondition.placed) ?_
    intro later value middle hrun hchart hmiddle hlater _ _
    split
    · rename_i htruthy
      exact charts_execute hclosed steps thenBranch (hm.after hchart hmiddle hlater) hthen
        (hclosed hh (.thenBranch hrun htruthy))
    · exact charts_pure hmiddle trivial
  | steps + 1, .ifElse condition thenBranch (some elseBranch), chart, scopes, shapes, m, hm, hs,
      hh => by
    rw [execute]
    obtain ⟨hcondition, hthen, helse⟩ := hs.ifElse
    refine (charts_evaluate hclosed steps condition hm hcondition (hclosed hh .ifCondition)).bind
      (sound_evaluate steps condition hm.charted.sound hm.stands.fits hcondition.placed) ?_
    intro later value middle hrun hchart hmiddle hlater _ _
    have hplace := hm.after hchart hmiddle hlater
    split
    · rename_i htruthy
      exact charts_execute hclosed steps thenBranch hplace hthen
        (hclosed hh (.thenBranch hrun htruthy))
    · rename_i htruthy
      exact charts_execute hclosed steps elseBranch hplace helse
        (hclosed hh (.elseBranch hrun (Bool.not_eq_true _ ▸ htruthy)))
  | steps + 1, .whileLoop condition body, chart, scopes, shapes, m, hm, hs, hh => by
    rw [execute]
    obtain ⟨hcondition, hbody⟩ := hs.whileLoop
    refine (charts_evaluate hclosed steps condition hm hcondition (hclosed hh .condition)).bind
      (sound_evaluate steps condition hm.charted.sound hm.stands.fits hcondition.placed) ?_
    intro later value middle hrun hchart hmiddle hlater _ _
    have hplace := hm.after hchart hmiddle hlater
    split
    · rename_i htruthy
      refine (charts_execute hclosed steps body hplace hbody
        (hclosed hh (.round hrun htruthy))).bind
        (sound_execute steps body hmiddle.sound hplace.stands.fits hbody.placed) ?_
      intro last flow after hround hlast hafter hlater' _ hflow
      cases flow with
      | returned result => exact charts_pure hafter hflow
      | normal =>
        exact charts_execute hclosed steps _ (hplace.after hlast hafter hlater') hs
          (hclosed hh (.again hrun htruthy hround))
    · exact charts_pure hmiddle trivial
  | steps + 1, .function declaration, chart, scopes, shapes, m, hm, hs, _ => by
    rw [execute]
    refine (charts_declareFunction hm hs).bind
      (sound_declareFunction hm.charted.sound hm.stands.fits hs.function.placed) ?_
    intro _ _ _ _ _ hafter _ _ _
    exact charts_pure hafter trivial
  | steps + 1, .return _ value, chart, scopes, shapes, m, hm, hs, hh => by
    rw [execute]
    refine (charts_evaluateOptional hclosed steps value hm hs.return (hclosed hh .returned)).bind
      (sound_evaluateOptional steps value hm.charted.sound hm.stands.fits
        fun result h => (hs.return result h).placed) ?_
    intro _ _ _ _ _ hafter _ _ hresult
    exact charts_pure hafter hresult
  | steps + 1, .class name superclass methods, chart, scopes, shapes, m, hm, hs, hh => by
    rw [execute]
    have hplaced := hs.placed
    rw [Stmt.Placed] at hplaced
    refine (@charts_declareClass c chart scopes shapes m hm ⟨name, superclass, methods⟩ hs
      ⟨steps, hh⟩).bind
      (sound_declareClass hm.charted.sound hm.stands.fits hplaced.1 hplaced.2) ?_
    intro _ _ _ _ _ hafter _ _ _
    exact charts_pure hafter trivial

theorem charts_executeAll (hclosed : Moment.Closed c.happened) :
    ∀ (steps : Nat) (body : List Stmt) {chart : Chart} {scopes : List Scope} {shapes : List Shape}
    {m : Machine}, m.At c chart none scopes shapes →
    SituatedStatements c.toSetting scopes shapes body → c.happened ⟨.executeAll body, steps, m⟩ →
    Charts c chart (executeAll steps body) m fun later flow after =>
      flow.Charted c later after.store
  | 0, _, _, _, _, _, hm, _, _ => charts_exhausted hm.charted
  | steps + 1, [], chart, scopes, shapes, m, hm, _, _ => by
    rw [executeAll]
    exact charts_pure hm.charted trivial
  | steps + 1, s :: rest, chart, scopes, shapes, m, hm, hs, hh => by
    rw [executeAll]
    obtain ⟨hfirst, hrest⟩ := hs.cons
    refine (charts_execute hclosed steps s hm hfirst (hclosed hh .head)).bind
      (sound_execute steps s hm.charted.sound hm.stands.fits hfirst.placed) ?_
    rintro later flow after hrun hchart hafter hlater ⟨-, -, hfits⟩ hflow
    cases flow with
    | returned value => exact charts_pure hafter hflow
    | normal =>
      exact charts_executeAll hclosed steps rest
        (at_scopesAfter hm hfirst hchart hafter hlater (hfits rfl)) hrest (hclosed hh (.tail hrun))

theorem charts_evaluateOptional (hclosed : Moment.Closed c.happened) :
    ∀ (steps : Nat) (value : Option Expr) {chart : Chart} {initialized : Option String}
    {scopes : List Scope} {shapes : List Shape} {m : Machine},
    m.At c chart initialized scopes shapes →
    SituatedOptional c.toSetting scopes shapes initialized value →
    c.happened ⟨.evaluateOptional value, steps, m⟩ →
    Charts c chart (evaluateOptional steps value) m fun later result after =>
      result.Charted c later after.store
  | 0, _, _, _, _, _, _, hm, _, _ => charts_exhausted hm.charted
  | steps + 1, none, chart, initialized, scopes, shapes, m, hm, _, _ => by
    rw [evaluateOptional]
    exact charts_pure hm.charted trivial
  | steps + 1, some value, chart, initialized, scopes, shapes, m, hm, hs, hh => by
    rw [evaluateOptional]
    exact charts_evaluate hclosed steps value hm (hs value rfl) (hclosed hh .optional)

theorem charts_evaluate (hclosed : Moment.Closed c.happened) :
    ∀ (steps : Nat) (e : Expr) {chart : Chart} {initialized : Option String} {scopes : List Scope}
    {shapes : List Shape} {m : Machine}, m.At c chart initialized scopes shapes →
    e.Situated c.toSetting scopes shapes initialized → c.happened ⟨.evaluate e, steps, m⟩ →
    Charts c chart (evaluate steps e) m fun later value after => value.Charted c later after.store
  | 0, _, _, _, _, _, _, hm, _, _ => charts_exhausted hm.charted
  | steps + 1, .literal value, chart, initialized, scopes, shapes, m, hm, _, _ => by
    rw [evaluate]
    exact charts_pure hm.charted (Literal.charted_value value)
  | steps + 1, .grouping inner, chart, initialized, scopes, shapes, m, hm, hs, hh => by
    rw [evaluate]
    exact charts_evaluate hclosed steps inner hm hs.grouping (hclosed hh .grouping)
  | steps + 1, .unary op line operand, chart, initialized, scopes, shapes, m, hm, hs, hh => by
    rw [evaluate]
    refine (charts_evaluate hclosed steps operand hm hs.unary (hclosed hh .unary)).bind
      (sound_evaluate steps operand hm.charted.sound hm.stands.fits hs.unary.placed) ?_
    intro _ _ _ _ _ hafter _ _ _
    exact charts_orFault _ hafter fun _ hresult => (UnaryOp.plain_of_apply hresult).charted
  | steps + 1, .binary op line left right, chart, initialized, scopes, shapes, m, hm, hs, hh => by
    rw [evaluate]
    obtain ⟨hleft, hright⟩ := hs.binary
    refine (charts_evaluate hclosed steps left hm hleft (hclosed hh .binaryLeft)).bind
      (sound_evaluate steps left hm.charted.sound hm.stands.fits hleft.placed) ?_
    intro later a middle hrun hchart hmiddle hlater _ _
    have hplace := hm.after hchart hmiddle hlater
    refine (charts_evaluate hclosed steps right hplace hright (hclosed hh (.binaryRight hrun))).bind
      (sound_evaluate steps right hmiddle.sound hplace.stands.fits hright.placed) ?_
    intro _ _ _ _ _ hafter _ _ _
    exact charts_orFault _ hafter fun _ hresult => (BinaryOp.plain_of_apply hresult).charted
  | steps + 1, .logical op _ left right, chart, initialized, scopes, shapes, m, hm, hs, hh => by
    rw [evaluate]
    obtain ⟨hleft, hright⟩ := hs.logical
    refine (charts_evaluate hclosed steps left hm hleft (hclosed hh .logicalLeft)).bind
      (sound_evaluate steps left hm.charted.sound hm.stands.fits hleft.placed) ?_
    intro later value after hrun hchart hafter hlater _ hvalue
    split
    · exact charts_pure hafter hvalue
    · rename_i hdecides
      exact charts_evaluate hclosed steps right (hm.after hchart hafter hlater) hright
        (hclosed hh (.logicalRight hrun (Bool.not_eq_true _ ▸ hdecides)))
  | steps + 1, .variable name id, chart, initialized, scopes, shapes, m, hm, _, _ => by
    rw [evaluate]
    exact charts_read hm.charted name id
  | steps + 1, .assign name id value, chart, initialized, scopes, shapes, m, hm, hs, hh => by
    rw [evaluate]
    obtain ⟨hvalue, hhops, hunreserved, -⟩ := hs.assign
    refine (charts_evaluate hclosed steps value hm hvalue (hclosed hh .assigned)).bind
      (sound_evaluate steps value hm.charted.sound hm.stands.fits hvalue.placed) ?_
    intro later result middle _ hchart hmiddle hlater _ hresult
    have hplace := hm.after hchart hmiddle hlater
    refine (charts_assign hplace hhops hunreserved hresult).bind
      (sound_assign hmiddle.sound hplace.stands.fits hhops hresult.sound) ?_
    intro last _ after _ hlast hafter hlater' _ _
    exact charts_pure hafter (hresult.mono hlast hlater'.1)
  | steps + 1, .call callee line args, chart, initialized, scopes, shapes, m, hm, hs, hh => by
    rw [evaluate]
    obtain ⟨hcallee, hargs⟩ := hs.call
    refine (charts_evaluate hclosed steps callee hm hcallee (hclosed hh .callee)).bind
      (sound_evaluate steps callee hm.charted.sound hm.stands.fits hcallee.placed) ?_
    intro later function middle hrun hchart hmiddle hlater _ hfunction
    have hplace := hm.after hchart hmiddle hlater
    refine (charts_evaluateAll hclosed steps args hplace hargs (hclosed hh (.arguments hrun))).bind
      (sound_evaluateAll steps args hmiddle.sound hplace.stands.fits hargs.placed) ?_
    intro last values after hrun' hlast hafter hlater' _ hvalues
    exact charts_call hclosed steps line hafter (hfunction.mono hlast hlater'.1) hvalues
      (hclosed hh (.call hrun hrun'))
  | steps + 1, .get object name, chart, initialized, scopes, shapes, m, hm, hs, hh => by
    rw [evaluate]
    refine (charts_evaluate hclosed steps object hm hs.get (hclosed hh .getObject)).bind
      (sound_evaluate steps object hm.charted.sound hm.stands.fits hs.get.placed) ?_
    intro later value after _ hchart hafter _ _ hvalue
    cases value with
    | «instance» o => exact charts_property hafter hvalue name
    | _ => exact charts_fault hafter _ _
  | steps + 1, .set object name value, chart, initialized, scopes, shapes, m, hm, hs, hh => by
    rw [evaluate]
    obtain ⟨hobject, hvalue⟩ := hs.set
    refine (charts_evaluate hclosed steps object hm hobject (hclosed hh .setObject)).bind
      (sound_evaluate steps object hm.charted.sound hm.stands.fits hobject.placed) ?_
    intro later owner middle hrun hchart hmiddle hlater _ _
    have hplace := hm.after hchart hmiddle hlater
    cases owner with
    | «instance» o =>
      refine (charts_evaluate hclosed steps value hplace hvalue (hclosed hh (.setValue hrun))).bind
        (sound_evaluate steps value hmiddle.sound hplace.stands.fits hvalue.placed) ?_
      intro last result after _ hlast hafter _ _ hresult
      refine (charts_setField hafter o name.text hresult).bind
        (sound_setField hafter.sound o name.text hresult.sound) ?_
      intro _ _ final _ hfinal hcharted hgrows _ _
      exact charts_pure hcharted (hresult.mono hfinal hgrows.1)
    | _ => exact charts_fault hmiddle _ _
  | steps + 1, .this line id, chart, initialized, scopes, shapes, m, hm, _, _ => by
    rw [evaluate]
    exact charts_read hm.charted _ id
  | steps + 1, .super line id method, chart, initialized, scopes, shapes, m, hm, hs, _ => by
    rw [evaluate]
    exact charts_superMethod hm hs.super.1 line method

theorem charts_evaluateAll (hclosed : Moment.Closed c.happened) :
    ∀ (steps : Nat) (args : List Expr) {chart : Chart} {initialized : Option String}
    {scopes : List Scope} {shapes : List Shape} {m : Machine},
    m.At c chart initialized scopes shapes →
    SituatedArguments c.toSetting scopes shapes initialized args →
    c.happened ⟨.evaluateAll args, steps, m⟩ →
    Charts c chart (evaluateAll steps args) m fun later values after =>
      ∀ value ∈ values, value.Charted c later after.store
  | 0, _, _, _, _, _, _, hm, _, _ => charts_exhausted hm.charted
  | steps + 1, [], chart, initialized, scopes, shapes, m, hm, _, _ => by
    rw [evaluateAll]
    exact charts_pure hm.charted fun value h => by cases h
  | steps + 1, e :: rest, chart, initialized, scopes, shapes, m, hm, hs, hh => by
    rw [evaluateAll]
    obtain ⟨hfirst, hrest⟩ := hs.cons
    refine (charts_evaluate hclosed steps e hm hfirst (hclosed hh .argument)).bind
      (sound_evaluate steps e hm.charted.sound hm.stands.fits hfirst.placed) ?_
    intro later first middle hrun hchart hmiddle hlater _ hvalue
    have hplace := hm.after hchart hmiddle hlater
    refine (charts_evaluateAll hclosed steps rest hplace hrest
      (hclosed hh (.otherArguments hrun))).bind
      (sound_evaluateAll steps rest hmiddle.sound hplace.stands.fits hrest.placed) ?_
    intro last values after _ hlast hafter hlater' _ hvalues
    refine charts_pure hafter fun value hmem => ?_
    rcases List.mem_cons.mp hmem with rfl | hmem
    · exact hvalue.mono hlast hlater'.1
    · exact hvalues value hmem

/-- A call needs nothing of the frame that it is made in. -/
theorem charts_call (hclosed : Moment.Closed c.happened) :
    ∀ (steps : Nat) {callee : Value} (line : Nat) {args : List Value} {chart : Chart}
    {m : Machine}, m.Charted c chart → callee.Charted c chart m.store →
    (∀ value ∈ args, value.Charted c chart m.store) →
    c.happened ⟨.call callee line args, steps, m⟩ →
    Charts c chart (call steps callee line args) m fun later value after =>
      value.Charted c later after.store
  | 0, _, _, _, _, _, hm, _, _, _ => charts_exhausted hm
  | steps + 1, callee, line, args, chart, m, hm, hcallee, hargs, hh => by
    unfold call
    rcases harity : callee.arity? with _ | arity
    · exact charts_fault hm _ _
    · by_cases hlength : args.length = arity
      · simp only [hlength, ne_eq, not_true_eq_false, if_false]
        subst hlength
        cases callee with
        | native function =>
          exact charts_of_ok rfl (List.prefix_refl chart) (hm.of_store_eq rfl rfl) trivial
        | function identity closure =>
          have hsame := (Option.some.inj harity).symm
          exact charts_invoke hclosed steps hm hcallee hargs hsame (hclosed hh (.function hsame))
        | «class» k =>
          have hsame := (Option.some.inj harity).symm
          exact charts_instantiate hclosed steps hm hcallee hargs hsame
            (hclosed hh (.construction hsame))
        | _ => exact charts_fault hm _ _
      · simp only [hlength, ne_eq, not_false_eq_true, if_true]
        exact charts_fault hm _ _

theorem charts_invoke (hclosed : Moment.Closed c.happened) :
    ∀ (steps : Nat) {f : Closure} {args : List Value} {chart : Chart} {m : Machine},
    m.Charted c chart → f.Charted c chart m.store → (∀ value ∈ args, value.Charted c chart m.store) →
    args.length = f.arity → c.happened ⟨.invoke f args, steps, m⟩ →
    Charts c chart (invoke steps f args) m fun later value after => value.Charted c later after.store
  | 0, _, _, _, _, hm, _, _, _, _ => charts_exhausted hm
  | steps + 1, f, args, chart, m, hm, hf, hargs, hlength, hh => by
    obtain ⟨scopes, shapes, hstands, hdefined, hsituated, hthis⟩ := hf
    have hbody := (hsituated.body hstands.shaped).1
    rw [invoke, callFrame_bind]
    refine (charts_callFrame hm hargs hlength hstands hdefined hsituated).bind
      (sound_callFrame hm.sound hstands.fits (fun value hvalue => (hargs value hvalue).sound)
        hlength) ?_
    intro later frame middle hframe hchart hmiddle hlater _ hplace
    refine (charts_within (charts_executeAll hclosed steps _ hplace hbody
      (hclosed hh (.body hframe)))).bind
      (sound_within (sound_executeAll steps _ hplace.charted.sound hplace.stands.fits
        hbody.placed)) ?_
    rintro last flow after - - hafter - - ⟨inner, hflow, hstore⟩
    rw [hstore] at hflow
    split
    · have hback : Machine.Charted c last { after with current := f.frame } :=
        hafter.of_store_eq rfl rfl
      refine (charts_within (charts_readAt hback 0 "this")).imp ?_
      rintro _ _ _ - ⟨_, hvalue, hsame⟩
      rw [← hsame]
      exact hvalue
    · cases flow with
      | returned value => exact charts_pure hafter hflow
      | normal => exact charts_pure hafter trivial

theorem charts_instantiate (hclosed : Moment.Closed c.happened) :
    ∀ (steps : Nat) {k : ClassValue} {args : List Value} {chart : Chart} {m : Machine},
    m.Charted c chart → k.Charted c chart m.store → (∀ value ∈ args, value.Charted c chart m.store) →
    args.length = k.arity → c.happened ⟨.instantiate k args, steps, m⟩ →
    Charts c chart (instantiate steps k args) m fun later value after =>
      value.Charted c later after.store
  | 0, _, _, _, _, hm, _, _, _, _ => charts_exhausted hm
  | steps + 1, k, args, chart, m, hm, hk, hargs, hlength, hh => by
    rw [instantiate]
    refine (charts_newInstance hm hk).bind (sound_newInstance hm.sound k) ?_
    rintro later o middle hnew hchart hmiddle hlater rfl ho
    rcases hinit : o.ofClass.initializer? with _ | initializer
    · exact charts_pure hmiddle ho
    · refine (charts_bindMethod hmiddle (ho.findMethod? hinit) ho).bind
        (sound_bindMethod hmiddle.sound (ho.sound.findMethod? hinit) ho.sound) ?_
      rintro last f after hbind hlast hafter hgrows ⟨-, hdeclaration⟩ hf
      have hargs' := fun value hvalue => (hargs value hvalue).mono (hchart.trans hlast)
        (hlater.1.trans hgrows.1)
      have harity : args.length = f.arity := by
        rw [hlength, ClassValue.arity, hinit, Closure.arity, hdeclaration]
        rfl
      refine (charts_invoke hclosed steps hafter hf hargs' harity
        (hclosed hh (.initialization hnew hinit hbind))).bind
        (sound_invoke steps hafter.sound hf.sound
          (fun value hvalue => (hargs' value hvalue).sound) harity) ?_
      intro _ _ _ _ hfinal hcharted hgrows' _ _
      exact charts_pure hcharted ((ho.mono hlast hgrows.1).mono hfinal hgrows'.1)

end

/-! ### Programs -/

theorem charts_executeTop (hclosed : Moment.Closed c.happened) (steps : Nat) :
    ∀ {program : Program} {chart : Chart} {m : Machine}, m.At c chart none [] [] →
    SituatedStatements c.toSetting [] [] program → c.happened ⟨.program program, steps, m⟩ →
    Charts c chart (executeTop steps program) m fun _ _ _ => True
  | [], chart, m, hm, _, _ => charts_pure hm.charted trivial
  | s :: rest, chart, m, hm, hs, hh => by
    rw [executeTop]
    obtain ⟨hfirst, hrest⟩ := hs.cons
    rw [scopesAfter_nil] at hrest
    refine (charts_execute hclosed steps s hm hfirst (hclosed hh .first)).bind
      (sound_execute steps s hm.charted.sound hm.stands.fits hfirst.placed) ?_
    intro later _ after hrun hchart hafter hlater _ _
    exact charts_executeTop hclosed steps (hm.after hchart hafter hlater) hrest
      (hclosed hh (.next hrun))

theorem charts_flush (hm : m.Charted c chart) : Charts c chart flush m fun _ _ _ => True := by
  by_cases hfails : m.sink.flushFails = true
  · exact charts_of_error (if_pos hfails) hm
  · exact charts_of_ok (if_neg hfails) (List.prefix_refl chart) hm trivial

theorem charts_interpret (hclosed : Moment.Closed c.happened) (steps : Nat) {program : Program}
    (hm : m.At c chart none [] []) (hs : SituatedStatements c.toSetting [] [] program)
    (hh : c.happened ⟨.program program, steps, m⟩) :
    Charts c chart (interpret steps program) m fun _ _ _ => True := by
  refine (charts_executeTop hclosed steps hm hs hh).bind
    (sound_executeTop steps hm.charted.sound hm.stands.fits hs.placed) ?_
  intro _ _ _ _ _ hafter _ _ _
  exact charts_flush hafter

end Run

end Treewalk
