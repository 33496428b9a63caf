import Treewalk.Proofs.Evaluation.Charts

/-!
# Runs that keep to a chart

**Code that is situated in scopes, and runs in a frame that stands for them, leaves a machine with a
larger chart, however it ends.**  That frames go on to fit the scopes is taken from the rules that
runs are held to; here only the chart is carried along.
-/

namespace Treewalk

open Run

/-! ### Places -/

/-- Every name in the scopes is ready, but for the variable whose initializer is being read. -/
def ReadyBut (initialized : Option String) (scopes : List Scope) : Prop :=
  ∀ scope ∈ scopes, ∀ (text : String) (standing : Standing), scope[text]? = some standing →
    standing = .defined ∨ initialized = some text

theorem AllDefined.readyBut {scopes : List Scope} (h : AllDefined scopes)
    (initialized : Option String) : ReadyBut initialized scopes :=
  fun scope hscope text standing hfound => Or.inl (h scope hscope text standing hfound)

theorem ReadyBut.allDefined {scopes : List Scope} (h : ReadyBut none scopes) : AllDefined scopes :=
  fun scope hscope text standing hfound =>
    (h scope hscope text standing hfound).resolve_right fun hnone => by cases hnone

theorem AllDefined.putDeclared {scopes : List Scope} (h : AllDefined scopes) (text : String) :
    ReadyBut (some text) (Treewalk.putName text .declared scopes) := by
  rcases scopes with _ | ⟨scope, outer⟩
  · exact h.readyBut _
  · intro found hfound other standing hother
    rcases List.mem_cons.mp hfound with rfl | houter
    · rw [Std.ExtTreeMap.getElem?_insert] at hother
      split at hother
      · rename_i heq
        exact Or.inr (congrArg some (by simpa using heq))
      · exact Or.inl (h scope List.mem_cons_self other standing hother)
    · exact Or.inl (h found (List.mem_cons_of_mem _ houter) other standing hother)

/-- The machine is on the chart, and its current frame stands for the scopes of a place in the
    source, which may lie in the initializer of a variable. -/
structure Machine.At (c : Scene) (chart : Chart) (initialized : Option String)
    (scopes : List Scope) (shapes : List Shape) (m : Machine) : Prop where
  charted : m.Charted c chart
  stands : StandsFor c chart m.store m.current scopes shapes
  ready : ReadyBut initialized scopes

namespace Machine.At

variable {c : Scene} {chart later : Chart} {initialized : Option String} {scopes : List Scope}
variable {shapes : List Shape} {m next : Machine}

/-- A run that keeps to the chart and comes back to its frame is still at the same place. -/
theorem after (h : m.At c chart initialized scopes shapes) (hchart : chart <+: later)
    (hcharted : next.Charted c later)
    (hlater : m.store.Grows next.store ∧ next.current = m.current) :
    next.At c later initialized scopes shapes where
  charted := hcharted
  stands := by
    rw [hlater.2]
    exact h.stands.mono hchart hlater.1
  ready := h.ready

/-- The place of the initializer of a variable: its name is declared and not yet ready. -/
theorem initializer (h : m.At c chart none scopes shapes) {text : String} (howns : Owns shapes text) :
    m.At c chart (some text) (putName text .declared scopes) shapes where
  charted := h.charted
  stands := ⟨h.stands.chain, h.stands.fits.putDeclared text, h.stands.shaped.putName howns .declared⟩
  ready := h.ready.allDefined.putDeclared text

theorem lt_size (h : m.At c chart initialized scopes shapes) :
    m.current.index < m.store.frames.size :=
  h.stands.fits.lt_size (by rw [h.charted.size]; exact h.charted.nonempty)

end Machine.At

/-- The global frame has no frame around it on the chart. -/
theorem Machine.Charted.ne_globals {c : Scene} {chart : Chart} {m : Machine} (hm : m.Charted c chart)
    {f outer : FrameId} {shape : Shape} (h : chart[f.index]? = some (shape, some outer)) :
    f ≠ Store.globals := by
  rintro rfl
  have hlink := hm.links _ _ _ h
  rw [Store.enclosing?_globals] at hlink
  cases hlink

/-- A hop count leads to a frame of the shape that it leads to in the source. -/
theorem Machine.Charted.ancestor? {c : Scene} {chart : Chart} {m : Machine} (hm : m.Charted c chart)
    {f : FrameId} {shapes : List Shape} (hchain : chart.Chain f shapes) {hops : Nat} {shape : Shape}
    (hget : shapes[hops]? = some shape) :
    ∃ owner outer, m.store.ancestor? f hops = some owner
      ∧ chart[owner.index]? = some (shape, some outer) := by
  induction hops generalizing f shapes with
  | zero =>
    cases hchain with
    | globals => cases hget
    | @inner _ outer _ _ hf _ =>
      cases hget
      exact ⟨f, outer, rfl, hf⟩
  | succ hops ih =>
    cases hchain with
    | globals => cases hget
    | inner hf houter =>
      obtain ⟨owner, outer, howner, hshape⟩ := ih houter hget
      refine ⟨owner, outer, ?_, hshape⟩
      rw [Store.ancestor?, hm.links _ _ _ hf]
      exact howner

/-- The innermost scope may get a name, and then its frame may bind it. -/
theorem StandsFor.admits {c : Scene} {chart : Chart} {m : Machine} {f : FrameId}
    {scopes : List Scope} {shapes : List Shape} {text : String} (hm : m.Charted c chart)
    (h : StandsFor c chart m.store f scopes shapes) (howns : Owns shapes text) (value : Value)
    (shape : Shape) (outer : FrameId) (hf : chart[f.index]? = some (shape, some outer)) :
    shape.Admits c.happened f text value := by
  cases h.chain with
  | globals => exact absurd rfl (hm.ne_globals hf)
  | @inner _ _ label labels hlabel _ =>
    rw [hf] at hlabel
    cases hlabel
    cases shape with
    | names texts => exact howns
    | this declaration => exact howns.elim
    | super declaration => exact howns.elim

/-- With the name bound, the frame stands for the scopes with the name in them. -/
theorem StandsFor.define {c : Scene} {chart : Chart} {s : Store} {f : FrameId}
    {scopes : List Scope} {shapes : List Shape} {text : String}
    (h : StandsFor c chart s f scopes shapes) (hlt : f.index < s.frames.size)
    (howns : Owns shapes text) (value : Value) :
    StandsFor c chart (s.define f text value) f (putName text .defined scopes) shapes where
  chain := h.chain
  fits := by
    refine Store.Fits.putDefined (h.fits.mono (.define _ _ _ _)) ?_
    rw [Store.local?_define_self hlt]
    rfl
  shaped := h.shaped.putName howns .defined

/-! ### Runs on a chart -/

/-- From a chart on, the run leaves a machine on a larger chart, also if it stops.  If it ends well,
    what it leaves is as stated. -/
def Run.Charts {α : Type} (c : Scene) (chart : Chart) (x : Run α) (m : Machine)
    (Q : Chart → α → Machine → Prop) : Prop :=
  match x m with
  | .ok a after => ∃ later, chart <+: later ∧ after.Charted c later ∧ Q later a after
  | .error _ after => ∃ later, chart <+: later ∧ after.Charted c later

namespace Run

variable {α β : Type} {c : Scene} {chart : Chart} {x : Run α} {f : α → Run β} {m : Machine}
variable {Q : Chart → α → Machine → Prop} {R : Chart → β → Machine → Prop}

theorem charts_of_ok {a : α} {after : Machine} {later : Chart} (h : x m = .ok a after)
    (hchart : chart <+: later) (hafter : after.Charted c later) (hQ : Q later a after) :
    Charts c chart x m Q := by
  unfold Charts
  rw [h]
  exact ⟨later, hchart, hafter, hQ⟩

theorem charts_of_error {halt : Halt} {after : Machine} (h : x m = .error halt after)
    (hafter : after.Charted c chart) : Charts c chart x m Q := by
  unfold Charts
  rw [h]
  exact ⟨chart, List.prefix_refl chart, hafter⟩

theorem Charts.of_ok {a : α} {after : Machine} (hx : Charts c chart x m Q) (h : x m = .ok a after) :
    ∃ later, chart <+: later ∧ after.Charted c later ∧ Q later a after := by
  unfold Charts at hx
  rw [h] at hx
  exact hx

theorem charts_pure {a : α} (hm : m.Charted c chart) (hQ : Q chart a m) :
    Charts c chart (pure a) m Q :=
  charts_of_ok rfl (List.prefix_refl chart) hm hQ

theorem charts_fault (hm : m.Charted c chart) (site : Name) (cause : FaultCause) :
    Charts c chart (fault site cause : Run α) m Q :=
  charts_of_error rfl hm

theorem charts_exhausted (hm : m.Charted c chart) : Charts c chart (exhausted : Run α) m Q :=
  charts_of_error rfl hm

theorem charts_orFault (site : Name) {result : Except FaultCause α} (hm : m.Charted c chart)
    (hQ : ∀ a, result = .ok a → Q chart a m) : Charts c chart (orFault site result) m Q := by
  rcases result with cause | a
  · exact charts_fault hm site cause
  · exact charts_pure hm (hQ a rfl)

/-- The second part of a run starts on the chart that the first part leaves, and in frames that still
    fit. -/
theorem Charts.bind {S : α → Machine → Prop} (hx : Charts c chart x m Q)
    (hkeeps : Keeps (sound c.table c.kept) x m S)
    (hf : ∀ later a after, x m = .ok a after → chart <+: later → after.Charted c later →
      m.store.Grows after.store ∧ after.current = m.current → S a after → Q later a after →
      Charts c later (f a) after R) :
    Charts c chart (x >>= f) m R := by
  unfold Charts at hx
  unfold Keeps at hkeeps
  rcases hresult : x m with ⟨a, middle⟩ | ⟨halt, middle⟩
  · rw [hresult] at hx hkeeps
    obtain ⟨later, hchart, hmiddle, hQ⟩ := hx
    have hrest := hf later a middle hresult hchart hmiddle hkeeps.2.1 hkeeps.2.2 hQ
    unfold Charts at hrest ⊢
    rw [bind_of_ok hresult]
    rcases hlast : f a middle with ⟨b, after⟩ | ⟨halt, after⟩
    · rw [hlast] at hrest
      obtain ⟨last, hgrown, hafter⟩ := hrest
      exact ⟨last, hchart.trans hgrown, hafter⟩
    · rw [hlast] at hrest
      obtain ⟨last, hgrown, hafter⟩ := hrest
      exact ⟨last, hchart.trans hgrown, hafter⟩
  · rw [hresult] at hx
    unfold Charts
    rw [bind_of_error hresult]
    exact hx

theorem Charts.imp {S : Chart → α → Machine → Prop} (hx : Charts c chart x m Q)
    (hQ : ∀ later a after, chart <+: later → Q later a after → S later a after) :
    Charts c chart x m S := by
  unfold Charts at hx ⊢
  rcases hresult : x m with ⟨a, after⟩ | ⟨halt, after⟩
  · rw [hresult] at hx
    obtain ⟨later, hchart, hafter, hlast⟩ := hx
    exact ⟨later, hchart, hafter, hQ later a after hchart hlast⟩
  · rw [hresult] at hx
    exact hx

/-- What runs in another frame leaves the frame as it was. -/
theorem charts_within {frame : FrameId} {body : Run α}
    (hbody : Charts c chart body { m with current := frame } Q) :
    Charts c chart (within frame body) m fun later a after =>
      ∃ inner : Machine, Q later a inner ∧ inner.store = after.store := by
  unfold Charts at hbody ⊢
  unfold within
  rcases hresult : body { m with current := frame } with ⟨a, inner⟩ | ⟨halt, inner⟩
  · rw [hresult] at hbody
    obtain ⟨later, hchart, hinner, hQ⟩ := hbody
    exact ⟨later, hchart, hinner.of_store_eq rfl rfl, inner, hQ, rfl⟩
  · rw [hresult] at hbody
    obtain ⟨later, hchart, hinner⟩ := hbody
    exact ⟨later, hchart, hinner.of_store_eq rfl rfl⟩

end Run

end Treewalk
