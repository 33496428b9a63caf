/-!
# One computation after another

**Parsers and runs are computations that change a state and may stop.**  Of two in sequence the
second starts with the result and the state that the first leaves; if the first stops, so does
the sequence.  Two computations side by side keep their states related, and end alike.
-/

namespace Treewalk

variable {ε σ α β : Type} {x : EStateM ε σ α} {f : α → EStateM ε σ β} {s later : σ}

theorem bind_of_ok {a : α} (h : x s = .ok a later) : (x >>= f) s = f a later := by
  show EStateM.bind x f s = f a later
  unfold EStateM.bind
  rw [h]

theorem bind_of_error {e : ε} (h : x s = .error e later) : (x >>= f) s = .error e later := by
  show EStateM.bind x f s = .error e later
  unfold EStateM.bind
  rw [h]

/-- A sequence ends well only if both parts do. -/
theorem ok_of_bind_eq_ok {b : β} (h : (x >>= f) s = .ok b later) :
    ∃ a middle, x s = .ok a middle ∧ f a middle = .ok b later := by
  rcases hx : x s with ⟨a, middle⟩ | ⟨e, middle⟩
  · rw [bind_of_ok hx] at h
    exact ⟨a, middle, rfl, h⟩
  · rw [bind_of_error hx] at h
    cases h

/-! ### Computations side by side -/

/-- Both have results, which a function relates, or both stop for reasons that another one relates.
    The states they leave are related. -/
inductive EndAlike (R : σ → σ → Prop) (w : ε → ε) (u : α → β) :
    EStateM.Result ε σ α → EStateM.Result ε σ β → Prop
  | ok {a : α} {s s' : σ} (h : R s s') : EndAlike R w u (.ok a s) (.ok (u a) s')
  | error {e : ε} {s s' : σ} (h : R s s') : EndAlike R w u (.error e s) (.error (w e) s')

/-- From related states the computations end alike. -/
def Tracks (R : σ → σ → Prop) (w : ε → ε) (u : α → β) (x : EStateM ε σ α) (y : EStateM ε σ β) :
    Prop :=
  ∀ s s', R s s' → EndAlike R w u (x s) (y s')

section Tracking

variable {γ δ : Type} {R : σ → σ → Prop} {w : ε → ε} {u : α → β} {v : γ → δ}

theorem tracks_pure {a : α} {b : β} (h : b = u a) :
    Tracks R w u (pure a : EStateM ε σ α) (pure b) := fun _ _ hs => by
  subst h
  exact .ok hs

theorem tracks_throw (e : ε) : Tracks R w u (throw e : EStateM ε σ α) (throw (w e)) :=
  fun _ _ hs => .error hs

theorem Tracks.bind {x : EStateM ε σ α} {y : EStateM ε σ β} {f : α → EStateM ε σ γ}
    {g : β → EStateM ε σ δ} (hx : Tracks R w u x y) (hf : ∀ a, Tracks R w v (f a) (g (u a))) :
    Tracks R w v (x >>= f) (y >>= g) := by
  intro s s' hs
  have h := hx s s' hs
  rcases hxs : x s with ⟨a, middle⟩ | ⟨e, middle⟩ <;> rw [hxs] at h
  · rcases hys : y s' with ⟨b, middle'⟩ | ⟨e', middle'⟩ <;> rw [hys] at h <;> cases h
    rename_i hmiddle
    rw [bind_of_ok hxs, bind_of_ok hys]
    exact hf a middle middle' hmiddle
  · rcases hys : y s' with ⟨b, middle'⟩ | ⟨e', middle'⟩ <;> rw [hys] at h <;> cases h
    rename_i hmiddle
    rw [bind_of_error hxs, bind_of_error hys]
    exact .error hmiddle

/-- A result is passed on in another form. -/
theorem Tracks.map {x : EStateM ε σ α} {y : EStateM ε σ β} (hx : Tracks R w u x y) {f : α → γ}
    {g : β → δ} (hf : ∀ a, g (u a) = v (f a)) :
    Tracks R w v (do return f (← x)) (do return g (← y)) :=
  hx.bind fun a => tracks_pure (hf a)

end Tracking

end Treewalk
