import Treewalk.Proofs.Sequencing
import Treewalk.Proofs.Simulation.Machines

/-!
# Runs that match

**Two runs match from two machines on if both end in the same way, with machines that are alike
again.**  They may stop for like reasons.  As with the rules for single runs, it is enough to
look at each action by itself, and at each pair of actions in sequence.
-/

namespace Treewalk

open Correspondence

/-- Two machines that come later than two that are alike, and are alike as well. -/
structure Follows (c : Correspondence) (w later : World) (m after after' : Machine) : Prop where
  world : w <+: later
  like : MachineLike c later after after'
  current : after.current = m.current
  grows : m.store.Grows after.store

/-- The runs end in the same way, and what they leave is as stated. -/
def Run.Matches {α : Type} (c : Correspondence) (w : World) (x x' : Run α) (m m' : Machine)
    (Q : World → α → α → Prop) : Prop :=
  match x m, x' m' with
  | .ok a after, .ok a' after' => ∃ later, Follows c w later m after after' ∧ Q later a a'
  | .error halt after, .error halt' after' =>
    ∃ later, Follows c w later m after after' ∧ HaltLike c halt halt'
  | _, _ => False

namespace Run

variable {α β : Type} {c : Correspondence} {w : World} {x x' : Run α} {f f' : α → Run β}
variable {m m' : Machine} {Q : World → α → α → Prop}

theorem matches_of_ok {a a' : α} {after after' : Machine} {later : World}
    (h : x m = .ok a after) (h' : x' m' = .ok a' after') (hf : Follows c w later m after after')
    (hQ : Q later a a') : Matches c w x x' m m' Q := by
  unfold Matches
  rw [h, h']
  exact ⟨later, hf, hQ⟩

theorem matches_of_error {halt halt' : Halt} {after after' : Machine} {later : World}
    (h : x m = .error halt after) (h' : x' m' = .error halt' after')
    (hf : Follows c w later m after after') (hhalt : HaltLike c halt halt') :
    Matches c w x x' m m' Q := by
  unfold Matches
  rw [h, h']
  exact ⟨later, hf, hhalt⟩

theorem follows_refl (hm : MachineLike c w m m') : Follows c w w m m m' :=
  ⟨List.prefix_refl _, hm, rfl, .refl _⟩

theorem matches_pure (hm : MachineLike c w m m') {a a' : α} (hQ : Q w a a') :
    Matches c w (pure a) (pure a') m m' Q :=
  matches_of_ok rfl rfl (follows_refl hm) hQ

theorem matches_throw (hm : MachineLike c w m m') {halt halt' : Halt}
    (hhalt : HaltLike c halt halt') : Matches c w (throw halt) (throw halt') m m' Q :=
  matches_of_error rfl rfl (follows_refl hm) hhalt

theorem follows_trans {later last : World} {middle middle' after after' : Machine}
    (h : Follows c w later m middle middle') (hlast : Follows c later last middle after after') :
    Follows c w last m after after' where
  world := h.world.trans hlast.world
  like := hlast.like
  current := hlast.current.trans h.current
  grows := h.grows.trans hlast.grows

/-- What follows may also rely on what the first run does by itself. -/
theorem Matches.bind_of_run {R : World → β → β → Prop} (hx : Matches c w x x' m m' Q)
    (hf : ∀ later a a' after after', x m = .ok a after → Follows c w later m after after' →
      Q later a a' → Matches c later (f a) (f' a') after after' R) :
    Matches c w (x >>= f) (x' >>= f') m m' R := by
  unfold Matches at hx
  rcases hm : x m with ⟨a, middle⟩ | ⟨halt, middle⟩ <;>
    rcases hm' : x' m' with ⟨a', middle'⟩ | ⟨halt', middle'⟩ <;> rw [hm, hm'] at hx
  · obtain ⟨later, hfollows, hQ⟩ := hx
    have hrest := hf later a a' middle middle' hm hfollows hQ
    unfold Matches at hrest ⊢
    rw [bind_of_ok hm, bind_of_ok hm']
    rcases hfa : f a middle with ⟨b, last⟩ | ⟨halt, last⟩ <;>
      rcases hfa' : f' a' middle' with ⟨b', last'⟩ | ⟨halt', last'⟩ <;> rw [hfa, hfa'] at hrest
    · obtain ⟨final, hfinal, hR⟩ := hrest
      exact ⟨final, follows_trans hfollows hfinal, hR⟩
    · exact hrest
    · exact hrest
    · obtain ⟨final, hfinal, hhalt⟩ := hrest
      exact ⟨final, follows_trans hfollows hfinal, hhalt⟩
  · exact hx.elim
  · exact hx.elim
  · obtain ⟨later, hfollows, hhalt⟩ := hx
    exact matches_of_error (bind_of_error hm) (bind_of_error hm') hfollows hhalt

/-- Nothing matters of a run but how it ends. -/
theorem Matches.of_eq {y' : Run α} {n' : Machine} (hx : Matches c w x x' m m' Q)
    (heq : y' n' = x' m') : Matches c w x y' m n' Q := by
  unfold Matches at hx ⊢
  rw [heq]
  exact hx

theorem Matches.bind {R : World → β → β → Prop} (hx : Matches c w x x' m m' Q)
    (hf : ∀ later a a' after after', Follows c w later m after after' → Q later a a' →
      Matches c later (f a) (f' a') after after' R) :
    Matches c w (x >>= f) (x' >>= f') m m' R :=
  hx.bind_of_run fun later a a' after after' _ => hf later a a' after after'

theorem Matches.imp {R : World → α → α → Prop} (hx : Matches c w x x' m m' Q)
    (hQ : ∀ later a a', w <+: later → Q later a a' → R later a a') :
    Matches c w x x' m m' R := by
  unfold Matches at hx ⊢
  rcases hm : x m with ⟨a, after⟩ | ⟨halt, after⟩ <;>
    rcases hm' : x' m' with ⟨a', after'⟩ | ⟨halt', after'⟩ <;> rw [hm, hm'] at hx
  · obtain ⟨later, hfollows, h⟩ := hx
    exact ⟨later, hfollows, hQ later a a' hfollows.world h⟩
  · exact hx
  · exact hx
  · exact hx

end Run

theorem Follows.chain {c : Correspondence} {w later : World} {m after after' : Machine}
    (h : Follows c w later m after after') {renamings : List Renaming}
    (hchain : w.Chain m.current renamings) : later.Chain after.current renamings := by
  rw [h.current]
  exact hchain.mono h.world

theorem isSome_of_rel {α : Type} {R : α → α → Prop} {a b : Option α} (h : Option.Rel R a b) :
    b.isSome = a.isSome := by
  cases h <;> rfl

namespace Run

/-! ### Stopping -/

section Actions

variable {α : Type} {c : Correspondence} {w : World} {m m' : Machine} {Q : World → α → α → Prop}
variable {renamings : List Renaming}

theorem matches_fault (hm : MachineLike c w m m') {site site' : Name}
    (hsite : NameLike c .same site site') (cause : FaultCause) :
    Matches c w (fault site cause) (fault site' cause) m m' Q :=
  matches_throw hm (.fault c.renames_same hsite (Or.inl rfl))

theorem matches_exhausted (hm : MachineLike c w m m') :
    Matches c w exhausted exhausted m m' Q :=
  matches_throw hm .outOfSteps

theorem matches_orFault (hm : MachineLike c w m m') {site site' : Name}
    (hsite : NameLike c .same site site') {result result' : Except FaultCause α}
    (hresult : (∃ cause, result = .error cause ∧ result' = .error cause)
      ∨ ∃ a a', result = .ok a ∧ result' = .ok a' ∧ Q w a a') :
    Matches c w (orFault site result) (orFault site' result') m m' Q := by
  rcases hresult with ⟨cause, rfl, rfl⟩ | ⟨a, a', rfl, rfl, hQ⟩
  · exact matches_fault hm hsite cause
  · exact matches_pure hm hQ

/-! ### Frames and names -/

/-- Asking for the frame changes nothing. -/
theorem matches_currentFrame {β : Type} (hm : MachineLike c w m m') {f f' : FrameId → Run β}
    {R : World → β → β → Prop} (h : Matches c w (f m.current) (f' m.current) m m' R) :
    Matches c w (currentFrame >>= f) (currentFrame >>= f') m m' R := by
  unfold Matches at h ⊢
  rw [bind_of_ok (show currentFrame m = .ok m.current m from rfl),
    bind_of_ok (show currentFrame m' = .ok m.current m' by rw [← hm.current]; rfl)]
  exact h

/-- Nor does asking for a hop count. -/
theorem matches_hopsOf {β : Type} (hm : MachineLike c w m m') {id : Nat}
    (hid : c.left[id]? = c.right[id]?) {f f' : Option Nat → Run β} {R : World → β → β → Prop}
    (h : Matches c w (f c.left[id]?) (f' c.left[id]?) m m' R) :
    Matches c w (hopsOf id >>= f) (hopsOf id >>= f') m m' R := by
  unfold Matches at h ⊢
  rw [bind_of_ok (show hopsOf id m = .ok c.left[id]? m by rw [← hm.hops]; rfl),
    bind_of_ok (show hopsOf id m' = .ok c.left[id]? m' by rw [hid, ← hm.hops']; rfl)]
  exact h

theorem follows_mapStore (hm : MachineLike c w m m') {change change' : Store → Store}
    (hstore : StoreLike c w (change m.store) (change' m'.store))
    (hgrows : m.store.Grows (change m.store)) :
    Follows c w w m (m.mapStore change) (m'.mapStore change') where
  world := List.prefix_refl _
  like := ⟨hstore, hm.current, hm.hops, hm.hops', hm.sink, hm.identities, hm.clock⟩
  current := rfl
  grows := hgrows

theorem matches_define (hm : MachineLike c w m m') {f : FrameId} {π : Renaming}
    {outer : Option FrameId} (hf : w[f.index]? = some (π, outer)) {name name' : String}
    (hname : name' = π name) {value value' : Value} (hvalue : ValueLike c w value value') :
    Matches c w (define f name value) (define f name' value') m m' fun _ _ _ => True := by
  subst hname
  exact matches_of_ok rfl rfl
    (follows_mapStore hm (hm.store.define hf name hvalue) (.define _ _ _ _)) trivial

theorem matches_child (hm : MachineLike c w m m') {f : FrameId} (hf : w.Chain f renamings)
    {π : Renaming} (hπ : c.renames π) :
    Matches c w (child f) (child f) m m' fun later frame frame' =>
      frame' = frame ∧ later.Chain frame (π :: renamings)
        ∧ later[frame.index]? = some (π, some f) := by
  have hlike : MachineLike c (w.withChild π f) (m.allocate fun store => store.child f).2
      (m'.allocate fun store => store.child f).2 :=
    ⟨hm.store.child (hm.store.lt_size hf) hπ, hm.current, hm.hops, hm.hops', hm.sink,
      hm.identities, hm.clock⟩
  refine matches_of_ok rfl rfl
    ⟨w.prefix_withChild π f, hlike, rfl, .child _ _⟩ ⟨?_, ?_, ?_⟩
  · exact FrameId.ext hm.store.size_eq
  · have hchain := hf.withChild π
    rw [← hm.store.size] at hchain
    exact hchain
  · have hget := w.getElem?_withChild_self π f
    rw [← hm.store.size] at hget
    exact hget

/-- What runs in another frame leaves the frame as it was. -/
theorem matches_within {f : FrameId} {body body' : Run α}
    (hbody : Matches c w body body' { m with current := f } { m' with current := f } Q)
    (hcurrent : m'.current = m.current) :
    Matches c w (within f body) (within f body') m m' Q := by
  unfold Matches at hbody ⊢
  unfold within
  rcases hm : body { m with current := f } with ⟨a, after⟩ | ⟨halt, after⟩ <;>
    rcases hm' : body' { m' with current := f } with ⟨a', after'⟩ | ⟨halt', after'⟩ <;>
    rw [hm, hm'] at hbody
  · obtain ⟨later, hfollows, hQ⟩ := hbody
    have hlike := hfollows.like
    exact ⟨later, ⟨hfollows.world, ⟨hlike.store, hcurrent, hlike.hops, hlike.hops', hlike.sink,
      hlike.identities, hlike.clock⟩, rfl, hfollows.grows⟩, hQ⟩
  · exact hbody
  · exact hbody
  · obtain ⟨later, hfollows, hhalt⟩ := hbody
    have hlike := hfollows.like
    exact ⟨later, ⟨hfollows.world, ⟨hlike.store, hcurrent, hlike.hops, hlike.hops', hlike.sink,
      hlike.identities, hlike.clock⟩, rfl, hfollows.grows⟩, hhalt⟩

theorem enter_like (hm : MachineLike c w m m') (f : FrameId) :
    MachineLike c w { m with current := f } { m' with current := f } :=
  ⟨hm.store, rfl, hm.hops, hm.hops', hm.sink, hm.identities, hm.clock⟩

theorem matches_readGlobal (hm : MachineLike c w m m') {name name' : Name}
    (hname : NameLike c .same name name') :
    Matches c w (readGlobal name) (readGlobal name') m m' (ValueLike c) := by
  have hbound := hm.store.bound Store.globals _ _ hm.store.first name.text
  have htext : name'.text = name.text := hname.text
  unfold Matches readGlobal
  rw [Store.get?_globals, Store.get?_globals, htext]
  generalize m.store.local? Store.globals name.text = found at hbound ⊢
  generalize hfound' : m'.store.local? Store.globals (Renaming.same name.text) = found' at hbound
  have hsame : m'.store.local? Store.globals name.text = found' := hfound'
  rw [hsame]
  cases hbound with
  | some hvalue => exact ⟨w, follows_refl hm, hvalue⟩
  | none => exact ⟨w, follows_refl hm, .fault c.renames_same hname (Or.inl rfl)⟩

theorem matches_readAt (hm : MachineLike c w m m') (hchain : w.Chain m.current renamings)
    (hops : Nat) {name name' : String} (hname : name' = renamings.getD hops .same name) :
    Matches c w (readAt hops name) (readAt hops name') m m' (ValueLike c) := by
  obtain ⟨hancestor, hframe⟩ := hm.store.ancestor? hops hchain
  unfold Matches readAt Store.getAt
  rw [hm.current, hancestor]
  rcases hfound : m.store.ancestor? m.current hops with _ | found
  · exact ⟨w, follows_refl hm, .tooFewFrames⟩
  · obtain ⟨outer, houter⟩ := hframe found hfound
    have hbound := hm.store.bound found _ _ houter name
    dsimp only
    rw [← hname] at hbound
    generalize m.store.local? found name = value at hbound ⊢
    generalize m'.store.local? found name' = value' at hbound ⊢
    cases hbound with
    | some hvalue => exact ⟨w, follows_refl hm, hvalue⟩
    | none =>
      refine ⟨w, follows_refl hm, ?_⟩
      rw [hname]
      exact .unboundAt (hm.store.allowed found _ _ houter)

theorem matches_read (hm : MachineLike c w m m') (hchain : w.Chain m.current renamings)
    {name name' : Name} {id : Nat} (hline : c.lines name.line name'.line)
    (href : RefLike c renamings id name.text name'.text) :
    Matches c w (read name id) (read name' id) m m' (ValueLike c) := by
  have htext := href.text
  unfold read
  apply matches_hopsOf hm href.hops
  rcases hhops : c.left[id]? with _ | hops <;> rw [hhops] at htext
  · exact matches_readGlobal hm ⟨htext, hline⟩
  · exact matches_readAt hm hchain hops htext

theorem matches_assignGlobal (hm : MachineLike c w m m') {name name' : Name}
    (hname : NameLike c .same name name') {value value' : Value}
    (hvalue : ValueLike c w value value') :
    Matches c w (assignFrom Store.globals name value) (assignFrom Store.globals name' value') m m'
      fun _ _ _ => True := by
  have htext : name'.text = name.text := hname.text
  have hbound := hm.store.bound Store.globals _ _ hm.store.first name.text
  have hdefined := hm.store.define hm.store.first name.text hvalue
  unfold Matches assignFrom
  rw [Store.owner?_globals, Store.owner?_globals, htext]
  generalize hfound : m.store.local? Store.globals name.text = found at hbound
  generalize hfound' : m'.store.local? Store.globals (Renaming.same name.text) = found' at hbound
  have hsame : m'.store.local? Store.globals name.text = found' := hfound'
  rw [hsame]
  cases hbound with
  | some _ => exact ⟨w, follows_mapStore hm hdefined (.define _ _ _ _), trivial⟩
  | none => exact ⟨w, follows_refl hm, .fault c.renames_same hname (Or.inl rfl)⟩

/-- An assignment to a name that the frame itself binds. -/
theorem matches_assignOwn (hm : MachineLike c w m m') {f : FrameId} {π : Renaming}
    {outer : Option FrameId} (hf : w[f.index]? = some (π, outer)) {name name' : Name}
    (hname : name'.text = π name.text) (hbound : (m.store.local? f name.text).isSome)
    {value value' : Value} (hvalue : ValueLike c w value value') :
    Matches c w (assignFrom f name value) (assignFrom f name' value') m m' fun _ _ _ => True := by
  have hrel := hm.store.bound f π outer hf name.text
  have hbound' : (m'.store.local? f name'.text).isSome := by
    rw [hname, isSome_of_rel hrel]
    exact hbound
  refine matches_of_ok (assignFrom_of_owner (Store.owner?_of_isSome hbound) value)
    (assignFrom_of_owner (Store.owner?_of_isSome hbound') value')
    (follows_mapStore hm ?_ (.define _ _ _ _)) trivial
  rw [hname]
  exact hm.store.define hf name.text hvalue

theorem matches_assignAt (hm : MachineLike c w m m') (hchain : w.Chain m.current renamings)
    (hops : Nat) {name name' : String} (hname : name' = renamings.getD hops .same name)
    {value value' : Value} (hvalue : ValueLike c w value value') :
    Matches c w (assignAt hops name value) (assignAt hops name' value') m m'
      fun _ _ _ => True := by
  obtain ⟨hancestor, hframe⟩ := hm.store.ancestor? hops hchain
  unfold Matches assignAt
  rw [hm.current, hancestor]
  rcases hfound : m.store.ancestor? m.current hops with _ | found
  · exact ⟨w, follows_refl hm, .tooFewFrames⟩
  · obtain ⟨outer, houter⟩ := hframe found hfound
    refine ⟨w, follows_mapStore hm ?_ (.define _ _ _ _), trivial⟩
    rw [hname]
    exact hm.store.define houter name hvalue

theorem matches_assign (hm : MachineLike c w m m') (hchain : w.Chain m.current renamings)
    {name name' : Name} {id : Nat} (hline : c.lines name.line name'.line)
    (href : RefLike c renamings id name.text name'.text) {value value' : Value}
    (hvalue : ValueLike c w value value') :
    Matches c w (assign name id value) (assign name' id value') m m' fun _ _ _ => True := by
  have htext := href.text
  unfold assign
  apply matches_hopsOf hm href.hops
  rcases hhops : c.left[id]? with _ | hops <;> rw [hhops] at htext
  · exact matches_assignGlobal hm ⟨htext, hline⟩ hvalue
  · exact matches_assignAt hm hchain hops htext hvalue

/-! ### Functions, classes and instances -/

theorem matches_freshIdentity (hm : MachineLike c w m m') :
    Matches c w freshIdentity freshIdentity m m' fun _ identity identity' =>
      identity' = identity := by
  refine matches_of_ok rfl rfl ⟨List.prefix_refl _, ?_, rfl, .refl _⟩ hm.identities
  exact ⟨hm.store, hm.current, hm.hops, hm.hops', hm.sink, by simp [hm.identities], hm.clock⟩

theorem matches_functionValue (hm : MachineLike c w m m') {f f' : Closure}
    (hf : ClosureLike c w f f') :
    Matches c w (functionValue f) (functionValue f') m m' (ValueLike c) := by
  unfold functionValue
  refine (matches_freshIdentity hm).bind ?_
  rintro later identity _ after after' hfollows rfl
  exact matches_pure hfollows.like (.function (hf.mono hfollows.world))

theorem matches_bindMethod (hm : MachineLike c w m m') {method method' : Closure}
    (hmethod : MethodLike c w method method') {o o' : Instance} (ho : InstanceLike c w o o') :
    Matches c w (bindMethod method o) (bindMethod method' o') m m' (fun later f f' =>
      ClosureLike c later f f') := by
  obtain ⟨hframe, hinit, renamings, hchain, hlike⟩ := hmethod
  unfold bindMethod
  rw [hframe]
  refine (matches_child hm hchain c.renames_same).bind ?_
  rintro later frame _ after after' hfollows ⟨rfl, hinner, hget⟩
  have ho' := ValueLike.instance (ho.mono hfollows.world)
  refine (matches_define hfollows.like hget rfl ho').bind ?_
  intro last _ _ _ _ hlast _
  refine matches_pure hlast.like ⟨rfl, hinit, _, hinner.mono hlast.world, hlike⟩

/-- Lookups that match layer by layer match as a whole. -/
theorem findSome?_rel {γ δ : Type} {R : γ → γ → Prop} {S : δ → δ → Prop} {look : γ → Option δ}
    (hlook : ∀ a a', R a a' → Option.Rel S (look a) (look a')) {as as' : List γ}
    (h : List.Forall₂ R as as') : Option.Rel S (as.findSome? look) (as'.findSome? look) := by
  induction h with
  | nil => exact .none
  | cons ha _ ih =>
    rename_i a a' rest rest' _
    rw [List.findSome?_cons, List.findSome?_cons]
    have hfound := hlook a a' ha
    generalize look a = found at hfound ⊢
    generalize look a' = found' at hfound ⊢
    cases hfound with
    | some h => exact .some h
    | none => exact ih

theorem findMethod?_like {k k' : ClassValue} (hk : ClassLike c w k k') (name : String) :
    Option.Rel (MethodLike c w) (k.findMethod? name) (k'.findMethod? name) :=
  findSome?_rel (fun _ _ hlayer => hlayer.methods name) (.cons hk.own hk.ancestors)

theorem matches_methodOf (hm : MachineLike c w m m') {k k' : ClassValue}
    (hk : ClassLike c w k k') {o o' : Instance} (ho : InstanceLike c w o o') {name name' : Name}
    (hname : NameLike c .same name name') :
    Matches c w (methodOf k o name) (methodOf k' o' name') m m' (ValueLike c) := by
  have htext : name'.text = name.text := hname.text
  have hmethod := findMethod?_like hk name.text
  unfold methodOf
  rw [htext]
  generalize k.findMethod? name.text = method at hmethod ⊢
  generalize k'.findMethod? name.text = method' at hmethod ⊢
  cases hmethod with
  | none => exact matches_fault hm hname _
  | some hmethod =>
    refine (matches_bindMethod hm hmethod ho).bind ?_
    intro later f f' after after' hfollows hf
    exact matches_functionValue hfollows.like hf

theorem matches_property (hm : MachineLike c w m m') {o o' : Instance} (ho : InstanceLike c w o o')
    {name name' : Name} (hname : NameLike c .same name name') :
    Matches c w (property o name) (property o' name') m m' (ValueLike c) := by
  have htext : name'.text = name.text := hname.text
  unfold property
  refine (matches_of_ok rfl rfl (follows_refl hm) ?_ :
    Matches c w (field? o name.text) (field? o' name'.text) m m' fun later found found' =>
      Option.Rel (ValueLike c later) found found').bind ?_
  · rw [htext]
    exact hm.store.fields o o' ho.index name.text
  · intro later found found' after after' hfollows hfound
    cases hfound with
    | some hvalue => exact matches_pure hfollows.like hvalue
    | none =>
      have ho' := ho.mono hfollows.world
      exact matches_methodOf hfollows.like ho'.ofClass ho' hname

theorem keyword_like {line line' : Nat} (hline : c.lines line line') (text : String) :
    NameLike c .same ⟨text, line⟩ ⟨text, line'⟩ :=
  ⟨rfl, hline⟩

theorem matches_superMethod (hm : MachineLike c w m m') (hchain : w.Chain m.current renamings)
    {line line' id : Nat} (hline : c.lines line line')
    (hsuper : RefLike c renamings id "super" "super") {method method' : Name}
    (hmethod : NameLike c .same method method') :
    Matches c w (superMethod line id method) (superMethod line' id method') m m'
      (ValueLike c) := by
  have htext := hsuper.text
  have hsite := keyword_like hline "super"
  unfold superMethod
  apply matches_hopsOf hm hsuper.hops
  rcases hhops : c.left[id]? with _ | hops <;> rw [hhops] at htext
  · exact matches_fault hm hsite _
  · refine (matches_readAt hm hchain hops htext).bind ?_
    intro w parent parent' m m' hfollows hparent
    replace hchain := hfollows.chain hchain
    replace hm := hfollows.like
    cases hparent with
    | «class» hk =>
      rcases hops with _ | inner
      · exact matches_throw hm .tooFewFrames
      · have hthis : "this" = renamings.getD inner .same "this" :=
          (c.renames_this _ (hm.store.renames_getD hchain inner)).symm
        refine (matches_readAt hm hchain inner hthis).bind ?_
        intro w receiver receiver' m m' hfollows hreceiver
        cases hreceiver with
        | «instance» ho =>
          exact matches_methodOf hfollows.like (hk.mono hfollows.world) ho hmethod
        | _ => exact matches_fault hfollows.like hsite _
    | _ => exact matches_fault hm hsite _

theorem matches_newInstance (hm : MachineLike c w m m') {k k' : ClassValue}
    (hk : ClassLike c w k k') :
    Matches c w (newInstance k) (newInstance k') m m' fun later o o' =>
      InstanceLike c later o o' ∧ o.ofClass = k ∧ o'.ofClass = k' := by
  obtain ⟨hstore, ho⟩ := hm.store.newInstance hk
  refine matches_of_ok rfl rfl ⟨List.prefix_refl _, ?_, rfl, .of_frames_eq rfl⟩ ⟨ho, rfl, rfl⟩
  exact ⟨hstore, hm.current, hm.hops, hm.hops', hm.sink, hm.identities, hm.clock⟩

theorem matches_setField (hm : MachineLike c w m m') {o o' : Instance} (ho : InstanceLike c w o o')
    {name name' : String} (hname : name' = name) {value value' : Value}
    (hvalue : ValueLike c w value value') :
    Matches c w (setField o name value) (setField o' name' value') m m' fun _ _ _ => True := by
  subst hname
  exact matches_of_ok rfl rfl
    (follows_mapStore hm (hm.store.setField ho.index _ hvalue) (.of_frames_eq rfl)) trivial

/-! ### The outside -/

theorem matches_write (hm : MachineLike c w m m') (text : String) :
    Matches c w (write text) (write text) m m' fun _ _ _ => True := by
  have hlike : Follows c w w m (m.mapSink fun sink => sink.write text.toUTF8)
      (m'.mapSink fun sink => sink.write text.toUTF8) := by
    refine ⟨List.prefix_refl _, ?_, rfl, .refl _⟩
    exact ⟨hm.store, hm.current, hm.hops, hm.hops', by simp [Machine.mapSink, hm.sink],
      hm.identities, hm.clock⟩
  by_cases hroom : m.sink.hasRoom text.toUTF8.size = true
  · have hroom' : m'.sink.hasRoom text.toUTF8.size = true := by rw [hm.sink]; exact hroom
    exact matches_of_ok (if_pos hroom) (if_pos hroom') hlike trivial
  · have hroom' : ¬ m'.sink.hasRoom text.toUTF8.size = true := by rw [hm.sink]; exact hroom
    exact matches_of_error (if_neg hroom) (if_neg hroom') hlike (.sink .full)

theorem matches_flush (hm : MachineLike c w m m') :
    Matches c w flush flush m m' fun _ _ _ => True := by
  by_cases hfails : m.sink.flushFails = true
  · have hfails' : m'.sink.flushFails = true := by rw [hm.sink]; exact hfails
    exact matches_of_error (if_pos hfails) (if_pos hfails') (follows_refl hm) (.sink .flushFailed)
  · have hfails' : ¬ m'.sink.flushFails = true := by rw [hm.sink]; exact hfails
    exact matches_of_ok (if_neg hfails) (if_neg hfails') (follows_refl hm) trivial

theorem matches_clock (hm : MachineLike c w m m') :
    Matches c w clock clock m m' (ValueLike c) := by
  refine matches_of_ok rfl rfl ⟨List.prefix_refl _, ?_, rfl, .refl _⟩ ?_
  · exact ⟨hm.store, hm.current, hm.hops, hm.hops', hm.sink, hm.identities, by simp [hm.clock]⟩
  · rw [hm.clock]
    exact .number _

end Actions

end Run

end Treewalk
