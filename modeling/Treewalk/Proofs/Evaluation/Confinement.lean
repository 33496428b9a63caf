import Treewalk.Proofs.Evaluation.SoundRuns
import Treewalk.Proofs.Store.Reach

/-!
# Actions that stay inside a part of the store

**An action that is given only values and frames of a closed set changes nothing outside of the
set, and has a result of the set.**  The set is the same for a whole run.  What the run makes anew
belongs to it from the start, so that the set need not grow.

The frame in which names are declared must belong to the set where an action looks at it.  It is a
condition of its own and no part of what is kept to, since a call never looks at the frame it was
made from.
-/

namespace Treewalk

/-- Runs stay inside a set of cells, and come back to their frame. -/
def confinement (A : Cell → Prop) (before : Store) : Discipline where
  holds m := before.Confined A m.store
  later m after := after.current = m.current
  refl _ := rfl
  trans h hlater := hlater.trans h
  permits _ := True

/-- A plain value holds no cell. -/
theorem Value.Plain.within {A : Cell → Prop} {value : Value} (h : value.Plain) :
    value.Within A := by
  intro p hp
  cases hp <;> cases h

namespace Run

variable {A : Cell → Prop} {before : Store} {m : Machine} {f : FrameId} {value : Value}
variable {c : ClassValue} {o : Instance}

/-! ### Frames and names -/

theorem confined_throw {α : Type} {Q : α → Machine → Prop} (hm : before.Confined A m.store)
    (halt : Halt) : Keeps (confinement A before) (throw halt) m Q :=
  keeps_throw hm trivial

theorem confined_fault {α : Type} {Q : α → Machine → Prop} (hm : before.Confined A m.store)
    (site : Name) (cause : FaultCause) : Keeps (confinement A before) (fault site cause) m Q :=
  confined_throw hm _

theorem confined_orFault {α : Type} {Q : α → Machine → Prop} (hm : before.Confined A m.store)
    (site : Name) {result : Except FaultCause α} (hQ : ∀ a, result = .ok a → Q a m) :
    Keeps (confinement A before) (orFault site result) m Q := by
  rcases result with cause | a
  · exact confined_fault hm site cause
  · exact keeps_pure hm (hQ a rfl)

theorem confined_currentFrame (hm : before.Confined A m.store) :
    Keeps (confinement A before) currentFrame m fun frame after =>
      frame = m.current ∧ after = m :=
  keeps_of_ok rfl hm rfl ⟨rfl, rfl⟩

theorem confined_define (hm : before.Confined A m.store) (hf : A (.frame f)) (name : String)
    (hvalue : value.Within A) : Keeps (confinement A before) (define f name value) m
      fun _ _ => True :=
  keeps_of_ok rfl (hm.define hf name hvalue) rfl trivial

theorem confined_child (hm : before.Confined A m.store) (hf : A (.frame f)) :
    Keeps (confinement A before) (child f) m fun frame _ => A (.frame frame) :=
  keeps_of_ok rfl (hm.child hf) rfl (hm.frame_child f)

theorem confined_freshIdentity (hm : before.Confined A m.store) :
    Keeps (confinement A before) freshIdentity m fun _ _ => True :=
  keeps_of_ok rfl hm rfl trivial

theorem confined_functionValue (hm : before.Confined A m.store) {closure : Closure}
    (hf : A (.frame closure.frame)) :
    Keeps (confinement A before) (functionValue closure) m fun value _ => value.Within A :=
  (confined_freshIdentity hm).bind fun _ _ hafter _ _ =>
    keeps_pure hafter (Value.within_function hf)

/-- What runs in a frame may start in any other. -/
theorem confined_within {α : Type} {Q : α → Prop} {body : Run α}
    (hbody : Keeps (confinement A before) body { m with current := f } fun a _ => Q a) :
    Keeps (confinement A before) (within f body) m fun a _ => Q a := by
  unfold Keeps at hbody ⊢
  unfold within
  rcases hresult : body { m with current := f } with ⟨a, inner⟩ | ⟨halt, inner⟩
  · rw [hresult] at hbody
    exact ⟨hbody.1, rfl, hbody.2.2⟩
  · rw [hresult] at hbody
    exact ⟨hbody.1, rfl, trivial⟩

theorem confined_readGlobal (hm : before.Confined A m.store) (hglobals : A (.frame Store.globals))
    (name : Name) : Keeps (confinement A before) (readGlobal name) m
      fun value _ => value.Within A := by
  exact keeps_readGlobal hm trivial fun value hfound => hm.local? hglobals hfound

theorem confined_readAt (hm : before.Confined A m.store) (hcurrent : A (.frame m.current))
    (hops : Nat) (name : String) : Keeps (confinement A before) (readAt hops name) m
      fun value after => value.Within A ∧ after = m := by
  refine keeps_readAt hm (fun _ _ => trivial) fun value hfound => ?_
  exact ⟨hm.getAt hcurrent hfound, rfl⟩

theorem confined_hopsOf (hm : before.Confined A m.store) (id : Nat) :
    Keeps (confinement A before) (hopsOf id) m fun _ after => after = m :=
  keeps_of_ok rfl hm rfl rfl

theorem confined_read (hm : before.Confined A m.store) (hglobals : A (.frame Store.globals))
    (hcurrent : A (.frame m.current)) (name : Name) (id : Nat) :
    Keeps (confinement A before) (read name id) m fun value _ => value.Within A := by
  unfold read
  refine (confined_hopsOf hm id).bind ?_
  rintro hops? _ - - rfl
  rcases hops? with _ | hops
  · exact confined_readGlobal hm hglobals name
  · exact (confined_readAt hm hcurrent hops name.text).imp fun _ _ _ h => h.1

theorem confined_assignFrom (hm : before.Confined A m.store) (hf : A (.frame f)) (name : Name)
    (hvalue : value.Within A) : Keeps (confinement A before) (assignFrom f name value) m
      fun _ _ => True := by
  refine keeps_assignFrom hm trivial fun owner howner => ?_
  exact keeps_of_ok rfl (hm.define (hm.owner? hf howner) name.text hvalue) rfl trivial

theorem confined_assignAt (hm : before.Confined A m.store) (hcurrent : A (.frame m.current))
    (hops : Nat) (name : String) (hvalue : value.Within A) :
    Keeps (confinement A before) (assignAt hops name value) m fun _ _ => True := by
  refine keeps_assignAt hm (fun _ => trivial) fun owner hfound => ?_
  exact keeps_of_ok rfl (hm.define (hm.ancestor? hcurrent hfound) name hvalue) rfl trivial

theorem confined_assign (hm : before.Confined A m.store) (hglobals : A (.frame Store.globals))
    (hcurrent : A (.frame m.current)) (name : Name) (id : Nat) (hvalue : value.Within A) :
    Keeps (confinement A before) (assign name id value) m fun _ _ => True := by
  unfold assign
  refine (confined_hopsOf hm id).bind ?_
  rintro hops? _ - - rfl
  rcases hops? with _ | hops
  · exact confined_assignFrom hm hglobals name hvalue
  · exact confined_assignAt hm hcurrent hops name.text hvalue

/-! ### Methods and instances -/

theorem confined_bindMethod (hm : before.Confined A m.store) {method : Closure}
    (hmethod : A (.frame method.frame)) (ho : (Value.instance o).Within A) :
    Keeps (confinement A before) (bindMethod method o) m
      fun bound _ => A (.frame bound.frame) := by
  unfold bindMethod
  refine (confined_child hm hmethod).bind fun frame middle hmiddle _ hframe => ?_
  refine (confined_define hmiddle hframe "this" ho).bind fun _ after hafter _ _ => ?_
  exact keeps_pure hafter hframe

theorem confined_methodOf (hm : before.Confined A m.store) (hc : c.Within A)
    (ho : (Value.instance o).Within A) (name : Name) :
    Keeps (confinement A before) (methodOf c o name) m fun value _ => value.Within A := by
  unfold methodOf
  rcases hfind : c.findMethod? name.text with _ | method
  · exact confined_fault hm name _
  · refine (confined_bindMethod hm (hc.findMethod? hfind) ho).bind
      fun bound after hafter _ hbound => ?_
    exact confined_functionValue hafter hbound

theorem confined_property (hm : before.Confined A m.store) (ho : (Value.instance o).Within A)
    (name : Name) :
    Keeps (confinement A before) (property o name) m fun value _ => value.Within A := by
  unfold property
  refine (keeps_of_ok rfl hm rfl ⟨rfl, rfl⟩ :
    Keeps (confinement A before) (field? o name.text) m fun found after =>
      found = m.store.field? o name.text ∧ after = m).bind ?_
  rintro _ m - - ⟨rfl, rfl⟩
  rcases hfield : m.store.field? o name.text with _ | value
  · exact confined_methodOf hm ho.ofClass ho name
  · exact keeps_pure hm (hm.field? ho.fields hfield)

theorem confined_superMethod (hm : before.Confined A m.store) (hcurrent : A (.frame m.current))
    (line id : Nat) (method : Name) :
    Keeps (confinement A before) (superMethod line id method) m fun value _ => value.Within A := by
  unfold superMethod
  refine (confined_hopsOf hm id).bind ?_
  rintro hops? _ - - rfl
  rcases hops? with _ | hops
  · exact confined_fault hm _ _
  refine (confined_readAt hm hcurrent hops "super").bind ?_
  rintro parent _ - - ⟨hparent, rfl⟩
  cases parent with
  | «class» superclass =>
    cases hops with
    | zero => exact confined_throw hm _
    | succ inner =>
      refine (confined_readAt hm hcurrent inner "this").bind ?_
      rintro receiver _ - - ⟨hreceiver, rfl⟩
      cases receiver with
      | «instance» o => exact confined_methodOf hm hparent.class hreceiver method
      | _ => exact confined_fault hm _ _
  | _ => exact confined_fault hm _ _

theorem confined_newInstance (hm : before.Confined A m.store) (hc : c.Within A) :
    Keeps (confinement A before) (newInstance c) m
      fun o _ => (Value.instance o).Within A :=
  keeps_of_ok rfl (hm.newInstance c) rfl (hm.within_newInstance hc)

theorem confined_setField (hm : before.Confined A m.store) (ho : (Value.instance o).Within A)
    (name : String) (hvalue : value.Within A) :
    Keeps (confinement A before) (setField o name value) m fun _ _ => True :=
  keeps_of_ok rfl (hm.setField ho.fields name hvalue) rfl trivial

/-! ### The outside -/

theorem confined_write (hm : before.Confined A m.store) (text : String) :
    Keeps (confinement A before) (write text) m fun _ _ => True := by
  by_cases hfits : m.sink.hasRoom text.toUTF8.size = true
  · exact keeps_of_ok (if_pos hfits) hm rfl trivial
  · exact keeps_of_error (if_neg hfits) hm rfl trivial

theorem confined_flush (hm : before.Confined A m.store) :
    Keeps (confinement A before) flush m fun _ _ => True := by
  by_cases hfails : m.sink.flushFails = true
  · exact keeps_of_error (if_pos hfails) hm rfl trivial
  · exact keeps_of_ok (if_neg hfails) hm rfl trivial

theorem confined_clock (hm : before.Confined A m.store) :
    Keeps (confinement A before) clock m fun value _ => value.Within A := by
  refine keeps_of_ok rfl hm rfl ?_
  intro p hp
  cases hp

/-! ### Declarations -/

theorem confined_bindParams (hf : A (.frame f)) : ∀ {params : List Name} {args : List Value}
    {m : Machine}, before.Confined A m.store → (∀ value ∈ args, value.Within A) →
    Keeps (confinement A before) (bindParams f params args) m fun _ _ => True
  | [], _, m, hm, _ => keeps_pure hm trivial
  | _ :: _, [], m, hm, _ => keeps_pure hm trivial
  | param :: params, argument :: args, m, hm, hargs => by
    rw [bindParams]
    refine (confined_define hm hf param.text (hargs argument List.mem_cons_self)).bind ?_
    intro _ after hafter _ _
    exact confined_bindParams hf hafter fun value hvalue =>
      hargs value (List.mem_cons_of_mem _ hvalue)

theorem confined_declareFunction (hm : before.Confined A m.store)
    (hcurrent : A (.frame m.current)) (declaration : FunctionDecl) :
    Keeps (confinement A before) (declareFunction declaration) m fun _ _ => True := by
  unfold declareFunction
  refine (confined_currentFrame hm).bind ?_
  rintro _ m - - ⟨rfl, rfl⟩
  have hclosure : A (.frame (Closure.mk declaration m.current false).frame) := hcurrent
  refine (confined_functionValue hm hclosure).bind fun value after hafter _ hvalue => ?_
  exact confined_define hafter hcurrent _ hvalue

theorem confined_superclassOf (hm : before.Confined A m.store) (hglobals : A (.frame Store.globals))
    (hcurrent : A (.frame m.current)) (superclass : Option Reference) :
    Keeps (confinement A before) (superclassOf superclass) m
      fun parent _ => ∀ c, parent = some c → c.Within A := by
  rcases superclass with _ | superclass
  · exact keeps_pure hm nofun
  · unfold superclassOf
    refine (confined_read hm hglobals hcurrent superclass.name superclass.id).bind ?_
    intro value after hafter _ hvalue
    cases value with
    | «class» c =>
      refine keeps_pure hafter fun found h => ?_
      cases h
      exact hvalue.class
    | _ => exact confined_fault hafter _ _

theorem confined_methodFrame (hm : before.Confined A m.store) (hf : A (.frame f))
    {parent : Option ClassValue} (hparent : ∀ c, parent = some c → c.Within A) :
    Keeps (confinement A before) (methodFrame f parent) m
      fun inner _ => A (.frame inner) := by
  rcases parent with _ | c
  · exact keeps_pure hm hf
  · unfold methodFrame
    refine (confined_child hm hf).bind fun inner middle hmiddle _ hinner => ?_
    refine (confined_define hmiddle hinner "super" (Value.within_class (hparent c rfl))).bind ?_
    intro _ after hafter _ _
    exact keeps_pure hafter hinner

/-- A class holds what its superclass holds, and the frame of its own methods. -/
theorem confined_newClass (hm : before.Confined A m.store) (name : String)
    {parent : Option ClassValue} {methods : List FunctionDecl} (hf : A (.frame f))
    (hparent : ∀ c, parent = some c → c.Within A) :
    Keeps (confinement A before) (newClass name parent (methodTable f methods)) m
      fun c _ => c.Within A := by
  have hown : ∀ {name : String} {method : Closure},
      (methodTable f methods)[name]? = some method → A (.frame method.frame) := by
    intro name method hmethod
    obtain ⟨declaration, -, -, rfl⟩ := exists_of_methodTable hmethod
    exact hf
  unfold newClass
  refine (confined_freshIdentity hm).bind fun identity after hafter _ _ => ?_
  rcases parent with _ | parent
  · refine keeps_pure hafter ?_
    rintro _ ⟨hlayer, hmethod⟩
    rcases List.mem_singleton.mp hlayer with rfl
    exact hown hmethod
  · refine keeps_pure hafter ?_
    rintro _ ⟨hlayer, hmethod⟩
    rcases List.mem_cons.mp hlayer with rfl | hlayer
    · exact hown hmethod
    · exact hparent parent rfl _ (.method hlayer hmethod)

theorem confined_declareClass (hm : before.Confined A m.store) (hglobals : A (.frame Store.globals))
    (hcurrent : A (.frame m.current)) (name : Name) (superclass : Option Reference)
    (methods : List FunctionDecl) :
    Keeps (confinement A before) (declareClass name superclass methods) m fun _ _ => True := by
  unfold declareClass
  refine (confined_superclassOf hm hglobals hcurrent superclass).bind ?_
  intro parent m₁ hm₁ hlater₁ hparent
  refine (confined_currentFrame hm₁).bind ?_
  rintro _ m₁ - - ⟨rfl, rfl⟩
  have hframe : A (.frame m₁.current) := by
    rw [hlater₁]
    exact hcurrent
  refine (confined_define hm₁ hframe name.text Value.within_nil).bind fun _ m₂ hm₂ _ _ => ?_
  refine (confined_methodFrame hm₂ hframe hparent).bind fun inner m₃ hm₃ _ hinner => ?_
  refine (confined_newClass hm₃ name.text hinner hparent).bind fun c m₄ hm₄ _ hc => ?_
  exact confined_assignFrom hm₄ hframe name (Value.within_class hc)

end Run

end Treewalk
