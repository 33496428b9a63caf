import Treewalk.Proofs.Thinning.Alignment

/-!
# Runs that stay aligned

**Two runs are aligned from two machines on if both end in the same way, with machines that are aligned
again.**  A frame may be made on both sides or on the first only, and what runs in a frame on one side
runs on the other in the frame that stands for it.  Names are never looked for in a frame that is left
out, as it binds none.
-/

namespace Treewalk

open Tables

/-- Two machines that come later than two that are aligned, and are aligned as well. -/
structure Tables.Onward (c : Tables) (w later : Pairing) (m m' after after' : Machine) : Prop where
  world : w <+: later
  like : MachineLike c later after after'
  current : after.current = m.current
  current' : after'.current = m'.current
  grows : m.store.Grows after.store

namespace Tables.Onward

variable {c : Tables} {w later last : Pairing} {m m' middle middle' after after' : Machine}

theorem refl (hm : MachineLike c w m m') : Onward c w w m m' m m' :=
  ⟨List.prefix_refl _, hm, rfl, rfl, .refl _⟩

theorem trans (h : Onward c w later m m' middle middle')
    (hlast : Onward c later last middle middle' after after') :
    Onward c w last m m' after after' where
  world := h.world.trans hlast.world
  like := hlast.like
  current := hlast.current.trans h.current
  current' := hlast.current'.trans h.current'
  grows := h.grows.trans hlast.grows

/-- The frames of now stand for the same scopes as before. -/
theorem around (h : Onward c w later m m' after after') {L R : List Scope}
    (haround : w.Around m.current L R) : later.Around after.current L R := by
  rw [h.current]
  exact haround.mono h.world

theorem kept (h : Onward c w later m m' after after') (hkept : w.Kept m.current m'.current) :
    later.Kept after.current after'.current := by
  rw [h.current, h.current']
  exact hkept.mono h.world

end Tables.Onward

/-- The runs end in the same way, and what they leave is as stated. -/
def Run.Aligned {α : Type} (c : Tables) (w : Pairing) (x x' : Run α) (m m' : Machine)
    (Q : Pairing → α → α → Prop) : Prop :=
  match x m, x' m' with
  | .ok a after, .ok a' after' => ∃ later, Onward c w later m m' after after' ∧ Q later a a'
  | .error halt after, .error halt' after' =>
    ∃ later, Onward c w later m m' after after' ∧ HaltLike halt halt'
  | _, _ => False

namespace Run

section Rules

variable {α β : Type} {c : Tables} {w : Pairing} {x x' : Run α} {f f' : α → Run β}
variable {m m' : Machine} {Q : Pairing → α → α → Prop}

theorem aligned_of_ok {a a' : α} {after after' : Machine} {later : Pairing}
    (h : x m = .ok a after) (h' : x' m' = .ok a' after')
    (hon : Onward c w later m m' after after') (hQ : Q later a a') :
    Aligned c w x x' m m' Q := by
  unfold Aligned
  rw [h, h']
  exact ⟨later, hon, hQ⟩

theorem aligned_of_error {halt halt' : Halt} {after after' : Machine} {later : Pairing}
    (h : x m = .error halt after) (h' : x' m' = .error halt' after')
    (hon : Onward c w later m m' after after') (hhalt : HaltLike halt halt') :
    Aligned c w x x' m m' Q := by
  unfold Aligned
  rw [h, h']
  exact ⟨later, hon, hhalt⟩

theorem aligned_pure (hm : MachineLike c w m m') {a a' : α} (hQ : Q w a a') :
    Aligned c w (pure a) (pure a') m m' Q :=
  aligned_of_ok rfl rfl (.refl hm) hQ

theorem aligned_throw (hm : MachineLike c w m m') {halt halt' : Halt}
    (hhalt : HaltLike halt halt') : Aligned c w (throw halt) (throw halt') m m' Q :=
  aligned_of_error rfl rfl (.refl hm) hhalt

/-- Aligned runs both give a result, or both stop. -/
theorem Aligned.cases (h : Aligned c w x x' m m' Q) :
    (∃ a a' after after' later, x m = .ok a after ∧ x' m' = .ok a' after'
      ∧ Onward c w later m m' after after' ∧ Q later a a')
    ∨ ∃ halt halt' after after' later, x m = .error halt after ∧ x' m' = .error halt' after'
      ∧ Onward c w later m m' after after' ∧ HaltLike halt halt' := by
  unfold Aligned at h
  rcases hm : x m with ⟨a, after⟩ | ⟨halt, after⟩ <;>
    rcases hm' : x' m' with ⟨a', after'⟩ | ⟨halt', after'⟩ <;> rw [hm, hm'] at h
  · obtain ⟨later, hon, hQ⟩ := h
    exact Or.inl ⟨a, a', after, after', later, rfl, rfl, hon, hQ⟩
  · exact h.elim
  · exact h.elim
  · obtain ⟨later, hon, hhalt⟩ := h
    exact Or.inr ⟨halt, halt', after, after', later, rfl, rfl, hon, hhalt⟩

/-- Machines that are aligned later than others are so from these on. -/
theorem Aligned.after {later : Pairing} {middle middle' : Machine}
    (hon : Onward c w later m m' middle middle') {y y' : Run α} (hx : x m = y middle)
    (hx' : x' m' = y' middle') (h : Aligned c later y y' middle middle' Q) :
    Aligned c w x x' m m' Q := by
  rcases h.cases with ⟨a, a', after, after', last, ha, ha', hlast, hQ⟩ |
    ⟨halt, halt', after, after', last, ha, ha', hlast, hhalt⟩
  · exact aligned_of_ok (hx.trans ha) (hx'.trans ha') (hon.trans hlast) hQ
  · exact aligned_of_error (hx.trans ha) (hx'.trans ha') (hon.trans hlast) hhalt

/-- What follows may also rely on what the first run does by itself. -/
theorem Aligned.bind_of_run {R : Pairing → β → β → Prop} (h : Aligned c w x x' m m' Q)
    (hf : ∀ later a a' after after', x m = .ok a after → Onward c w later m m' after after' →
      Q later a a' → Aligned c later (f a) (f' a') after after' R) :
    Aligned c w (x >>= f) (x' >>= f') m m' R := by
  rcases h.cases with ⟨a, a', after, after', later, ha, ha', hon, hQ⟩ |
    ⟨halt, halt', after, after', later, ha, ha', hon, hhalt⟩
  · exact (hf later a a' after after' ha hon hQ).after hon (bind_of_ok ha) (bind_of_ok ha')
  · exact aligned_of_error (bind_of_error ha) (bind_of_error ha') hon hhalt

theorem Aligned.bind {R : Pairing → β → β → Prop} (h : Aligned c w x x' m m' Q)
    (hf : ∀ later a a' after after', Onward c w later m m' after after' → Q later a a' →
      Aligned c later (f a) (f' a') after after' R) :
    Aligned c w (x >>= f) (x' >>= f') m m' R :=
  h.bind_of_run fun later a a' after after' _ => hf later a a' after after'

end Rules

/-! ### Stopping -/

section Actions

variable {α β : Type} {c : Tables} {w : Pairing} {m m' : Machine} {Q : Pairing → α → α → Prop}
variable {R : Pairing → β → β → Prop} {left right : List Scope} {f g : FrameId}

theorem aligned_fault (hm : MachineLike c w m m') (site : Name) (cause : FaultCause) :
    Aligned c w (fault site cause) (fault site cause) m m' Q :=
  aligned_throw hm (.same _)

theorem aligned_exhausted (hm : MachineLike c w m m') : Aligned c w exhausted exhausted m m' Q :=
  aligned_throw hm (.same _)

theorem aligned_orFault (hm : MachineLike c w m m') (site : Name) {result : Except FaultCause α}
    (hresult : ∀ a, result = .ok a → Q w a a) :
    Aligned c w (orFault site result) (orFault site result) m m' Q := by
  cases result with
  | error cause => exact aligned_fault hm site cause
  | ok a => exact aligned_pure hm (hresult a rfl)

/-! ### Frames -/

/-- Asking for the frame changes nothing. -/
theorem aligned_currentFrame (hm : MachineLike c w m m') {x x' : FrameId → Run β}
    (h : Aligned c w (x m.current) (x' m'.current) m m' R) :
    Aligned c w (currentFrame >>= x) (currentFrame >>= x') m m' R :=
  h.after (.refl hm) (bind_of_ok (show currentFrame m = .ok m.current m from rfl))
    (bind_of_ok (show currentFrame m' = .ok m'.current m' from rfl))

/-- Nor does asking for a hop count. -/
theorem aligned_hopsOf (hm : MachineLike c w m m') (id id' : Nat) {x x' : Option Nat → Run β}
    (h : Aligned c w (x c.left[id]?) (x' c.right[id']?) m m' R) :
    Aligned c w (hopsOf id >>= x) (hopsOf id' >>= x') m m' R := by
  refine h.after (.refl hm) (bind_of_ok (show hopsOf id m = .ok c.left[id]? m from ?_))
    (bind_of_ok (show hopsOf id' m' = .ok c.right[id']? m' from ?_))
  · rw [← hm.hops]
    rfl
  · rw [← hm.hops']
    rfl

theorem onward_mapStore (hm : MachineLike c w m m') {change change' : Store → Store}
    (hstore : StoreLike c w (change m.store) (change' m'.store))
    (hgrows : m.store.Grows (change m.store)) :
    Onward c w w m m' (m.mapStore change) (m'.mapStore change') where
  world := List.prefix_refl _
  like := ⟨hstore, hm.current, hm.hops, hm.hops', hm.sink, hm.identities, hm.clock⟩
  current := rfl
  current' := rfl
  grows := hgrows

theorem aligned_define (hm : MachineLike c w m m') (hf : w.Kept f g) (name : String)
    {value value' : Value} (hvalue : ValueLike c w value value') :
    Aligned c w (define f name value) (define g name value') m m' fun _ _ _ => True :=
  aligned_of_ok rfl rfl (onward_mapStore hm (hm.store.define hf name hvalue) (.define _ _ _ _))
    trivial

theorem aligned_child (hm : MachineLike c w m m') (hf : w.Stands f g) :
    Aligned c w (child f) (child g) m m' fun later frame frame' =>
      later.Kept frame frame' ∧ ∀ {L R : List Scope}, w.Around f L R → ∀ scope : Scope,
        later.Around frame (scope :: L) (scope :: R) := by
  have hframe : (⟨m.store.frames.size⟩ : FrameId) = ⟨w.length⟩ := FrameId.ext hm.store.size
  refine aligned_of_ok rfl rfl ⟨w.prefix_withChild (false, ⟨m'.store.frames.size⟩) f,
    ⟨hm.store.child hf, ?_, hm.hops, hm.hops', hm.sink, hm.identities, hm.clock⟩,
    rfl, rfl, .child _ _⟩ ⟨?_, ?_⟩
  · exact hm.current.mono (w.prefix_withChild _ f)
  · show Pairing.Kept _ ⟨m.store.frames.size⟩ _
    rw [hframe]
    exact Pairing.kept_withChild w f _
  · intro L R haround scope
    show Pairing.Around _ ⟨m.store.frames.size⟩ _ _
    rw [hframe]
    exact haround.keep _ scope

/-- What runs in another frame leaves the frame as it was. -/
theorem aligned_within (hm : MachineLike c w m m') {body body' : Run α}
    (hbody : Aligned c w body body' { m with current := f } { m' with current := g } Q) :
    Aligned c w (within f body) (within g body') m m' Q := by
  have hback : ∀ {later : Pairing} {after after' : Machine},
      Onward c w later { m with current := f } { m' with current := g } after after' →
      Onward c w later m m' { after with current := m.current }
        { after' with current := m'.current } := fun h =>
    ⟨h.world, ⟨h.like.store, hm.current.mono h.world, h.like.hops, h.like.hops', h.like.sink,
      h.like.identities, h.like.clock⟩, rfl, rfl, h.grows⟩
  rcases hbody.cases with ⟨a, a', after, after', later, ha, ha', hon, hQ⟩ |
    ⟨halt, halt', after, after', later, ha, ha', hon, hhalt⟩
  · exact aligned_of_ok (by unfold within; rw [ha]) (by unfold within; rw [ha']) (hback hon) hQ
  · exact aligned_of_error (by unfold within; rw [ha]) (by unfold within; rw [ha']) (hback hon) hhalt

theorem enter_aligned (hm : MachineLike c w m m') (hf : w.Stands f g) :
    MachineLike c w { m with current := f } { m' with current := g } :=
  ⟨hm.store, hf, hm.hops, hm.hops', hm.sink, hm.identities, hm.clock⟩

/-! ### Names -/

theorem aligned_readGlobal (hm : MachineLike c w m m') (name : Name) :
    Aligned c w (readGlobal name) (readGlobal name) m m' (ValueLike c) := by
  have hbound := hm.store.bound Store.globals Store.globals hm.store.globals name.text
  unfold Aligned readGlobal
  rw [Store.get?_globals, Store.get?_globals]
  generalize m.store.local? Store.globals name.text = found at hbound ⊢
  generalize m'.store.local? Store.globals name.text = found' at hbound ⊢
  cases hbound with
  | some hvalue => exact ⟨w, .refl hm, hvalue⟩
  | none => exact ⟨w, .refl hm, .same _⟩

/-- Hop counts that lead to a frame and its counterpart. -/
theorem aligned_readIn (hm : MachineLike c w m m') {hops hops' : Nat}
    (hf : m.store.ancestor? m.current hops = some f)
    (hg : m'.store.ancestor? m'.current hops' = some g) (hkept : w.Kept f g) (name : String) :
    Aligned c w (readAt hops name) (readAt hops' name) m m' (ValueLike c) := by
  have hbound := hm.store.bound f g hkept name
  unfold Aligned readAt Store.getAt
  rw [hf, hg]
  dsimp only
  generalize m.store.local? f name = value at hbound ⊢
  generalize m'.store.local? g name = value' at hbound ⊢
  cases hbound with
  | some hvalue => exact ⟨w, .refl hm, hvalue⟩
  | none => exact ⟨w, .refl hm, .breach _ _⟩

theorem aligned_readAt (hm : MachineLike c w m m') {labels : List (Bool × FrameId)}
    (hchain : w.Chain m.current labels) {hops : Nat}
    (hmark : (labels.map Prod.fst)[hops]? = some false) (name : String) :
    Aligned c w (readAt hops name) (readAt (thinned (labels.map Prod.fst) hops) name) m m'
      (ValueLike c) := by
  obtain ⟨found, found', hfound, hfound', hkept⟩ := hm.store.ancestor? hchain hm.current hmark
  exact aligned_readIn hm hfound hfound' hkept name

theorem aligned_read (hm : MachineLike c w m m') (haround : w.Around m.current left right)
    {name : Name} {id id' : Nat} (hleft : ReadPlaced c.left left id name.text)
    (hright : ReadPlaced c.right right id' name.text) :
    Aligned c w (read name id) (read name id') m m' (ValueLike c) := by
  obtain ⟨labels, hchain, hthins⟩ := haround
  obtain ⟨hhops, hmark⟩ := hthins.hops name.text
  unfold read
  apply aligned_hopsOf hm
  rw [hleft.hops, hright.hops, hhops]
  generalize hopsIn left name.text = found at hmark
  cases found with
  | none => exact aligned_readGlobal hm name
  | some hops => exact aligned_readAt hm hchain (hmark hops rfl) name.text

theorem aligned_assignGlobal (hm : MachineLike c w m m') (name : Name) {value value' : Value}
    (hvalue : ValueLike c w value value') :
    Aligned c w (assignFrom Store.globals name value) (assignFrom Store.globals name value') m m'
      fun _ _ _ => True := by
  have hbound := hm.store.bound Store.globals Store.globals hm.store.globals name.text
  have hdefined := hm.store.define hm.store.globals name.text hvalue
  unfold Aligned assignFrom
  rw [Store.owner?_globals, Store.owner?_globals]
  generalize m.store.local? Store.globals name.text = found at hbound
  generalize m'.store.local? Store.globals name.text = found' at hbound
  cases hbound with
  | some _ => exact ⟨w, onward_mapStore hm hdefined (.define _ _ _ _), trivial⟩
  | none => exact ⟨w, .refl hm, .same _⟩

/-- An assignment to a name that the frame itself binds. -/
theorem aligned_assignOwn (hm : MachineLike c w m m') (hf : w.Kept f g) {name : Name}
    (hbound : (m.store.local? f name.text).isSome) {value value' : Value}
    (hvalue : ValueLike c w value value') :
    Aligned c w (assignFrom f name value) (assignFrom g name value') m m' fun _ _ _ => True := by
  have hbound' : (m'.store.local? g name.text).isSome := by
    rw [isSome_of_rel (hm.store.bound f g hf name.text)]
    exact hbound
  exact aligned_of_ok (assignFrom_of_owner (Store.owner?_of_isSome hbound) value)
    (assignFrom_of_owner (Store.owner?_of_isSome hbound') value')
    (onward_mapStore hm (hm.store.define hf name.text hvalue) (.define _ _ _ _)) trivial

theorem aligned_assignAt (hm : MachineLike c w m m') {labels : List (Bool × FrameId)}
    (hchain : w.Chain m.current labels) {hops : Nat}
    (hmark : (labels.map Prod.fst)[hops]? = some false) (name : String) {value value' : Value}
    (hvalue : ValueLike c w value value') :
    Aligned c w (assignAt hops name value)
      (assignAt (thinned (labels.map Prod.fst) hops) name value') m m' fun _ _ _ => True := by
  obtain ⟨found, found', hfound, hfound', hkept⟩ := hm.store.ancestor? hchain hm.current hmark
  have hdefined := hm.store.define hkept name hvalue
  unfold Aligned assignAt
  rw [hfound, hfound']
  exact ⟨w, onward_mapStore hm hdefined (.define _ _ _ _), trivial⟩

theorem aligned_assign (hm : MachineLike c w m m') (haround : w.Around m.current left right)
    {name : Name} {id id' : Nat} (hleft : c.left[id]? = hopsIn left name.text)
    (hright : c.right[id']? = hopsIn right name.text) {value value' : Value}
    (hvalue : ValueLike c w value value') :
    Aligned c w (assign name id value) (assign name id' value') m m' fun _ _ _ => True := by
  obtain ⟨labels, hchain, hthins⟩ := haround
  obtain ⟨hhops, hmark⟩ := hthins.hops name.text
  unfold assign
  apply aligned_hopsOf hm
  rw [hleft, hright, hhops]
  generalize hopsIn left name.text = found at hmark
  cases found with
  | none => exact aligned_assignGlobal hm name hvalue
  | some hops => exact aligned_assignAt hm hchain (hmark hops rfl) name.text hvalue

/-! ### Functions, classes and instances -/

theorem aligned_freshIdentity (hm : MachineLike c w m m') :
    Aligned c w freshIdentity freshIdentity m m' fun _ identity identity' =>
      identity' = identity := by
  refine aligned_of_ok rfl rfl ⟨List.prefix_refl _, ?_, rfl, rfl, .refl _⟩ hm.identities
  exact ⟨hm.store, hm.current, hm.hops, hm.hops', hm.sink, by simp [hm.identities], hm.clock⟩

theorem aligned_functionValue (hm : MachineLike c w m m') {closure closure' : Closure}
    (hlike : ClosureLike c w closure closure') :
    Aligned c w (functionValue closure) (functionValue closure') m m' (ValueLike c) := by
  unfold functionValue
  refine (aligned_freshIdentity hm).bind ?_
  rintro later identity _ after after' hon rfl
  exact aligned_pure hon.like (.function (hlike.mono hon.world))

theorem aligned_bindMethod (hm : MachineLike c w m m') {method method' : Closure}
    (hmethod : MethodLike c w method method') {o o' : Instance} (ho : InstanceLike c w o o') :
    Aligned c w (bindMethod method o) (bindMethod method' o') m m' (ClosureLike c) := by
  obtain ⟨hframe, hinit, L, R, haround, hlike⟩ := hmethod
  unfold bindMethod
  refine (aligned_child hm hframe.stands).bind ?_
  rintro later frame frame' after after' hon ⟨hkept, hinner⟩
  refine (aligned_define hon.like hkept "this" (.instance (ho.mono hon.world))).bind ?_
  intro last _ _ _ _ hlast _
  exact aligned_pure hlast.like
    ⟨hkept.mono hlast.world, hinit, _, _, (hinner haround thisScope).mono hlast.world, hlike⟩

theorem findMethod?_aligned {k k' : ClassValue} (hk : ClassLike c w k k') (name : String) :
    Option.Rel (MethodLike c w) (k.findMethod? name) (k'.findMethod? name) :=
  findSome?_rel (fun _ _ hlayer => hlayer.methods name) (.cons hk.own hk.ancestors)

theorem aligned_methodOf (hm : MachineLike c w m m') {k k' : ClassValue}
    (hk : ClassLike c w k k') {o o' : Instance} (ho : InstanceLike c w o o') (name : Name) :
    Aligned c w (methodOf k o name) (methodOf k' o' name) m m' (ValueLike c) := by
  have hmethod := findMethod?_aligned hk name.text
  unfold methodOf
  generalize k.findMethod? name.text = method at hmethod ⊢
  generalize k'.findMethod? name.text = method' at hmethod ⊢
  cases hmethod with
  | none => exact aligned_fault hm name _
  | some hmethod =>
    refine (aligned_bindMethod hm hmethod ho).bind fun later _ _ after after' hon hlike => ?_
    exact aligned_functionValue hon.like hlike

theorem aligned_property (hm : MachineLike c w m m') {o o' : Instance} (ho : InstanceLike c w o o')
    (name : Name) : Aligned c w (property o name) (property o' name) m m' (ValueLike c) := by
  unfold property
  have hfield : Aligned c w (field? o name.text) (field? o' name.text) m m'
      fun later found found' => Option.Rel (ValueLike c later) found found' :=
    aligned_of_ok rfl rfl (.refl hm) (hm.store.fields o o' ho.index name.text)
  refine hfield.bind fun later found found' after after' hon hfound => ?_
  cases hfound with
  | some hvalue => exact aligned_pure hon.like hvalue
  | none => exact aligned_methodOf hon.like (ho.mono hon.world).ofClass (ho.mono hon.world) name

theorem aligned_superMethod (hm : MachineLike c w m m') (haround : w.Around m.current left right)
    (line : Nat) {id id' : Nat} (hleft : SuperPlaced c.left left id)
    (hright : SuperPlaced c.right right id') (method : Name) :
    Aligned c w (superMethod line id method) (superMethod line id' method) m m' (ValueLike c) := by
  obtain ⟨labels, hchain, hthins⟩ := haround
  obtain ⟨inner, htable, hhops, hsuper, hthis⟩ := hleft
  obtain ⟨inner', htable', hhops', -, -⟩ := hright
  obtain ⟨hmarkSuper, -⟩ := hthins.defines hsuper
  obtain ⟨hmarkThis, -⟩ := hthins.defines hthis
  -- both walks end where `super` stands, one frame further outward than `this`
  have hinner : inner' = thinned (labels.map Prod.fst) inner := by
    have hsame := (hthins.hops "super").1
    rw [hhops, hhops', Option.map_some, thinned_succ hmarkThis] at hsame
    exact Nat.succ.inj (Option.some.inj hsame)
  subst hinner
  unfold superMethod
  apply aligned_hopsOf hm
  rw [htable, htable']
  have hread := aligned_readAt hm hchain hmarkSuper "super"
  rw [thinned_succ hmarkThis] at hread
  refine hread.bind fun later parent parent' after after' hon hparent => ?_
  cases hparent with
  | «class» hk =>
    have hchain' : later.Chain after.current labels := by
      rw [hon.current]
      exact hchain.mono hon.world
    refine (aligned_readAt hon.like hchain' hmarkThis "this").bind ?_
    intro last receiver receiver' _ _ hlast hreceiver
    cases hreceiver with
    | «instance» ho => exact aligned_methodOf hlast.like (hk.mono hlast.world) ho method
    | _ => exact aligned_fault hlast.like _ _
  | _ => exact aligned_fault hon.like _ _

theorem aligned_newInstance (hm : MachineLike c w m m') {k k' : ClassValue}
    (hk : ClassLike c w k k') :
    Aligned c w (newInstance k) (newInstance k') m m' (InstanceLike c) := by
  obtain ⟨hstore, ho⟩ := hm.store.newInstance hk
  refine aligned_of_ok rfl rfl ⟨List.prefix_refl _, ?_, rfl, rfl, .of_frames_eq rfl⟩ ho
  exact ⟨hstore, hm.current, hm.hops, hm.hops', hm.sink, hm.identities, hm.clock⟩

theorem aligned_setField (hm : MachineLike c w m m') {o o' : Instance} (ho : InstanceLike c w o o')
    (name : String) {value value' : Value} (hvalue : ValueLike c w value value') :
    Aligned c w (setField o name value) (setField o' name value') m m' fun _ _ _ => True :=
  aligned_of_ok rfl rfl
    (onward_mapStore hm (hm.store.setField ho.index name hvalue) (.of_frames_eq rfl)) trivial

/-! ### The outside -/

theorem aligned_write (hm : MachineLike c w m m') (text : String) :
    Aligned c w (write text) (write text) m m' fun _ _ _ => True := by
  have hon : Onward c w w m m' (m.mapSink fun sink => sink.write text.toUTF8)
      (m'.mapSink fun sink => sink.write text.toUTF8) := by
    refine ⟨List.prefix_refl _, ?_, rfl, rfl, .refl _⟩
    exact ⟨hm.store, hm.current, hm.hops, hm.hops', by simp [Machine.mapSink, hm.sink],
      hm.identities, hm.clock⟩
  by_cases hroom : m.sink.hasRoom text.toUTF8.size = true
  · have hroom' : m'.sink.hasRoom text.toUTF8.size = true := by rw [hm.sink]; exact hroom
    exact aligned_of_ok (if_pos hroom) (if_pos hroom') hon trivial
  · have hroom' : ¬ m'.sink.hasRoom text.toUTF8.size = true := by rw [hm.sink]; exact hroom
    exact aligned_of_error (if_neg hroom) (if_neg hroom') hon (.same _)

theorem aligned_clock (hm : MachineLike c w m m') :
    Aligned c w clock clock m m' (ValueLike c) := by
  refine aligned_of_ok rfl rfl ⟨List.prefix_refl _, ?_, rfl, rfl, .refl _⟩ ?_
  · exact ⟨hm.store, hm.current, hm.hops, hm.hops', hm.sink, hm.identities, by simp [hm.clock]⟩
  · rw [hm.clock]
    exact .number _

end Actions

end Run

end Treewalk
