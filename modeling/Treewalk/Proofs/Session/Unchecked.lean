import Treewalk.Proofs.Evaluation.Comparing
import Treewalk.Proofs.Evaluation.Receivers
import Treewalk.Proofs.Evaluation.Returning
import Treewalk.Proofs.Session.Dispatch
import Treewalk.Proofs.Session.Governing

/-!
# Programs that nobody has checked

**Of what `super` looks up, only the superclass itself may be missing, whatever the hop counts are.**
A program can be run although it has static errors, on a machine that was given hop counts from
anywhere.  A misguided hop count may then lead to a frame that is not there, or to one that does not
bind the name, and the run ends in a breach.  But where it does lead to a superclass, the receiver is
there as well, and an initializer always finds what it was bound to.

Regimes take nothing from hop counts, so that every lawful one holds in such machines too.
-/

namespace Treewalk

/-- The machine comes about from a new one by running programs and evaluating expressions, in any
    order and however they end, and by adding and dropping any hop counts.  Programs are what a parser
    returns, with static errors or without.  All that is asked is that the words of its tokens are told
    from names, as they are in every source. -/
inductive Machine.Unchecked (outside : Outside) : Machine → Prop
  | initial : Unchecked outside (.initial outside)
  | learn {m : Machine} (h : Unchecked outside m) (table : HopTable) : Unchecked outside (m.learn table)
  | forget {m : Machine} (h : Unchecked outside m) (ids : List Nat) : Unchecked outside (m.forget ids)
  | interpret {m : Machine} (h : Unchecked outside m) {c : Cursor} (hc : c.Lexed) (steps : Nat) :
    Unchecked outside (Run.left (Run.interpret steps c.program.1) m)
  | evaluate {m : Machine} (h : Unchecked outside m) {c : Cursor} (hc : c.Lexed) {e : Expr}
    (he : c.expression.1 = some e) (steps : Nat) :
    Unchecked outside (Run.left (Run.evaluate steps e) m)

/-- The moment is part of running a program or evaluating an expression in such a machine. -/
inductive Moment.Unchecked (outside : Outside) : Moment → Prop
  | program {m : Machine} (h : m.Unchecked outside) {c : Cursor} (hc : c.Lexed) (steps : Nat) :
    Unchecked outside ⟨.program c.program.1, steps, m⟩
  | evaluate {m : Machine} (h : m.Unchecked outside) {c : Cursor} (hc : c.Lexed) {e : Expr}
    (he : c.expression.1 = some e) (steps : Nat) : Unchecked outside ⟨.evaluate e, steps, m⟩
  | starts {a b : Moment} (h : Unchecked outside a) (hstarts : a.Starts b) : Unchecked outside b

section Governed

variable {r : Regime} {outside : Outside}

theorem Run.governed_interpret (hr : r.Lawful) (steps : Nat) {program : Program} {m : Machine}
    (hm : m.Governed r) (hprogram : WellFormedStatements program) :
    Run.Keeps r.discipline (Run.interpret steps program) m fun _ _ => True :=
  (Run.governed_executeTop hr steps program hm hprogram).bind fun _ _ hafter _ _ =>
    Run.governed_flush hafter

theorem Cursor.Lexed.program {c : Cursor} (hc : c.Lexed) : WellFormedStatements c.program.1 :=
  (Cursor.program_numbered hc).2.2

theorem Cursor.Lexed.expression {c : Cursor} (hc : c.Lexed) {e : Expr}
    (he : c.expression.1 = some e) : e.WellFormed :=
  ((Cursor.expression_numbered hc).2 e he).2

theorem Machine.Unchecked.governed (hr : r.Lawful) {m : Machine} (h : m.Unchecked outside) :
    m.Governed r := by
  induction h with
  | initial => exact hr.governed_initial outside
  | learn _ _ ih => exact ⟨ih.holds, ih.scope⟩
  | forget _ _ ih => exact ⟨ih.holds, ih.scope⟩
  | interpret _ hc steps ih =>
    have hkeeps := Run.governed_interpret hr steps ih hc.program
    exact ih.after hkeeps.left.1 hkeeps.left.2
  | evaluate _ hc he steps ih =>
    have hkeeps := Run.governed_evaluate hr steps _ ih (hc.expression he)
    exact ih.after hkeeps.left.1 hkeeps.left.2

theorem Moment.Unchecked.governed (hr : r.Lawful) {moment : Moment} (h : moment.Unchecked outside) :
    moment.Governed r := by
  induction h with
  | program hm hc steps => exact ⟨hc.program, hm.governed hr⟩
  | evaluate hm hc he steps => exact ⟨hc.expression he, hm.governed hr⟩
  | starts _ hstarts ih => exact ih.starts hr hstarts

end Governed

/-! ### Looking up methods -/

namespace Run

theorem methodOf_ne_breach (c : ClassValue) (o : Instance) (name : Name) (m : Machine)
    (breach : Breach) (after : Machine) : methodOf c o name m ≠ .error (.breach breach) after := by
  unfold methodOf
  rcases c.findMethod? name.text with _ | method
  · intro h
    cases h
  · intro h
    have hbound : (bindMethod method o >>= functionValue) m = .error (.breach breach) after := h
    rw [bind_of_ok (bindMethod_ok method o m)] at hbound
    cases hbound

/-- If `super` ends in a breach, the superclass was not found. -/
theorem superMethod_breach {m after : Machine} (hm : m.Governed Regime.receiving) {line id : Nat}
    {method : Name} {breach : Breach}
    (h : superMethod line id method m = .error (.breach breach) after) :
    ∃ hops, m.hops[id]? = some hops ∧ m.store.getAt m.current hops "super" = .error breach := by
  have hhops : hopsOf id m = .ok m.hops[id]? m := rfl
  rcases hid : m.hops[id]? with _ | hops
  · rw [superMethod, bind_of_ok hhops, hid] at h
    cases h
  · refine ⟨hops, rfl, ?_⟩
    rcases hget : m.store.getAt m.current hops "super" with other | value
    · rw [superMethod, bind_of_ok hhops, hid] at h
      simp only [bind_of_error (readAt_of_error hget)] at h
      cases h
      rfl
    · obtain ⟨inner, frame, c, o, rfl, rfl, hframe, ho⟩ := hm.super_received hget
      rw [superMethod_of_getAt hid hget (Store.getAt_of_local? hframe ho)] at h
      exact absurd h (methodOf_ne_breach c o method m breach after)

/-- An initializer whose frame holds a receiver gives it, however its body ended. -/
theorem invoke_initializer {f : Closure} {args : List Value} {n : Nat} {m entered after : Machine}
    {frame : FrameId} {flow : Flow} {o : Instance} (hinit : f.isInitializer = true)
    (hframe : callFrame f args m = .ok frame entered)
    (hbody : within frame (executeAll n f.declaration.body) entered = .ok flow after)
    (hthis : after.store.getAt f.frame 0 "this" = .ok (.instance o)) :
    invoke (n + 1) f args m = .ok (.instance o) after := by
  have hread : readAt 0 "this" { after with current := f.frame }
      = .ok (.instance o) { after with current := f.frame } := readAt_of_ok hthis
  rw [invoke_succ, bind_of_ok hframe]
  show (within frame (executeAll n f.declaration.body) >>= resultOf f) entered = _
  rw [bind_of_ok hbody]
  unfold resultOf
  rw [if_pos hinit]
  exact (within_of_ok hread).trans rfl

end Run

/-! ### The first lookup -/

open Run

/-- **Only the first lookup of `super` can breach.**  Wherever `super` is evaluated and a value is
    found at its hop count, the hop count is not zero, the value is a class, and the frame one hop
    nearer binds `this` to an instance, so that the method is looked for and bound.  A breach of
    `super` is one of its first lookup.  Wherever an initializer is called and its body ends, what it
    was bound to is found in its frame, and is what the call gives. -/
theorem receivers_found (outside : Outside) :
    (∀ {line id n : Nat} {method : Name} {m : Machine},
        Moment.Unchecked outside ⟨.evaluate (.super line id method), n, m⟩ →
        (∀ {hops : Nat} {value : Value}, m.hops[id]? = some hops →
          m.store.getAt m.current hops "super" = .ok value →
          ∃ inner frame c o, hops = inner + 1 ∧ value = .class c
            ∧ m.store.ancestor? m.current inner = some frame
            ∧ m.store.local? frame "this" = some (.instance o)
            ∧ superMethod line id method m = methodOf c o method m)
        ∧ ∀ {breach : Breach} {after : Machine},
          superMethod line id method m = .error (.breach breach) after →
          ∃ hops, m.hops[id]? = some hops ∧ m.store.getAt m.current hops "super" = .error breach)
      ∧ ∀ {f : Closure} {args : List Value} {n : Nat} {m entered after : Machine} {frame : FrameId}
          {flow : Flow}, Moment.Unchecked outside ⟨.invoke f args, n + 1, m⟩ → f.isInitializer = true →
        callFrame f args m = .ok frame entered →
        within frame (executeAll n f.declaration.body) entered = .ok flow after →
        ∃ o, after.store.getAt f.frame 0 "this" = .ok (.instance o)
          ∧ invoke (n + 1) f args m = .ok (.instance o) after := by
  refine ⟨fun h => ⟨fun hid hget => ?_, fun hbreach => ?_⟩, ?_⟩
  · have hm := (h.governed Regime.lawful_receiving).machine
    obtain ⟨inner, frame, c, o, rfl, rfl, hframe, ho⟩ := hm.super_received hget
    exact ⟨inner, frame, c, o, rfl, rfl, hframe, ho,
      superMethod_of_getAt hid hget (Store.getAt_of_local? hframe ho)⟩
  · exact superMethod_breach (h.governed Regime.lawful_receiving).machine hbreach
  · intro f args n m entered after frame flow h hinit hframe hbody
    obtain ⟨o, ho⟩ := (h.governed Regime.lawful_receiving).initializer_received hinit hframe hbody
    have hthis : after.store.getAt f.frame 0 "this" = .ok (.instance o) :=
      Store.getAt_of_local? rfl ho
    exact ⟨o, hthis, invoke_initializer hinit hframe hbody hthis⟩

/-- The declarations of two classes, and a syntax error. -/
def bakery : Cursor :=
  Cursor.start (tokens
    "class Doughnut { cook() {} } class BostonCream < Doughnut { init() { super.cook; } } var") 0

/-- The machine behind these declarations, with two hops for `super`. -/
def baked : Machine :=
  left (interpret 9 bakery.program.1)
    ((Machine.initial .unlimited).learn ((∅ : HopTable).insert 1 2))

/-- The first of the two classes. -/
def doughnut : ClassValue where
  own := ⟨0, "Doughnut", methodTable ⟨0⟩ [⟨⟨"cook", 1⟩, [], []⟩]⟩
  ancestors := []

/-- The initializer of the second. -/
def bostonInit : FunctionDecl :=
  ⟨⟨"init", 1⟩, [], [.expression (.super 1 1 ⟨"cook", 1⟩)]⟩

/-- The second class. -/
def bostonCream : ClassValue where
  own := ⟨1, "BostonCream", methodTable ⟨1⟩ [bostonInit]⟩
  ancestors := doughnut.layers

/-- The machine in which the initializer has been bound to a new instance. -/
def served : Machine :=
  left (bindMethod ⟨bostonInit, ⟨1⟩, true⟩ ⟨0, bostonCream⟩) (left (newInstance bostonCream) baked)

/-- The machine in which there is a frame for its body. -/
def tasted : Machine :=
  left (callFrame ⟨bostonInit, ⟨2⟩, true⟩ []) served

theorem unchecked_served :
    Moment.Unchecked .unlimited ⟨.invoke ⟨bostonInit, ⟨2⟩, true⟩ [], 6, served⟩ := by
  have hm : baked.Unchecked .unlimited :=
    .interpret (.learn .initial _) (Cursor.start_lexed _ 0) 9
  have hroot : Moment.Unchecked .unlimited
      ⟨.evaluate (.call (.variable ⟨"BostonCream", 1⟩ 2) 1 []), 9, baked⟩ :=
    .evaluate hm (Cursor.start_lexed "BostonCream()" 2) (by decide +kernel) 9
  have hclass : evaluate 8 (.variable ⟨"BostonCream", 1⟩ 2) baked
      = .ok (.class bostonCream) baked := by
    rw [evaluate]
    exact read_of_global (by decide +kernel) (by decide +kernel)
  have hcall := hroot.starts (.call hclass (rfl : evaluateAll 8 [] baked = .ok [] baked))
  have hmade : newInstance bostonCream baked
      = .ok ⟨0, bostonCream⟩ (left (newInstance bostonCream) baked) :=
    eq_ok_left (by decide +kernel)
  have hinit : bostonCream.initializer? = some ⟨bostonInit, ⟨1⟩, true⟩ := by decide +kernel
  have hbound :
      bindMethod ⟨bostonInit, ⟨1⟩, true⟩ ⟨0, bostonCream⟩ (left (newInstance bostonCream) baked)
        = .ok ⟨bostonInit, ⟨2⟩, true⟩ served := eq_ok_left (by decide +kernel)
  exact (hcall.starts (.construction (by decide +kernel))).starts
    (.initialization hmade hinit hbound)

/-- The initializer finds a method of the superclass, and gives the new instance. -/
theorem receivers_found_bostonCream :
    (Moment.Unchecked .unlimited
        ⟨.evaluate (.super 1 1 ⟨"cook", 1⟩), 3, { tasted with current := ⟨3⟩ }⟩
      ∧ tasted.hops[1]? = some 2
      ∧ tasted.store.getAt ⟨3⟩ 2 "super" = .ok (.class doughnut)
      ∧ ∃ inner frame c o, 2 = inner + 1 ∧ Value.class doughnut = .class c
        ∧ tasted.store.ancestor? ⟨3⟩ inner = some frame
        ∧ tasted.store.local? frame "this" = some (.instance o))
      ∧ Moment.Unchecked .unlimited ⟨.invoke ⟨bostonInit, ⟨2⟩, true⟩ [], 6, served⟩
      ∧ ∃ after o, after.store.getAt ⟨2⟩ 0 "this" = .ok (.instance o)
        ∧ invoke 6 ⟨bostonInit, ⟨2⟩, true⟩ [] served = .ok (.instance o) after := by
  have hframe : callFrame ⟨bostonInit, ⟨2⟩, true⟩ [] served = .ok ⟨3⟩ tasted :=
    eq_ok_left (by decide +kernel)
  have hhops : tasted.hops[1]? = some 2 := by decide +kernel
  have hsuper : tasted.store.getAt ⟨3⟩ 2 "super" = .ok (.class doughnut) := by
    decide +kernel
  have hbody : within ⟨3⟩ (executeAll 5 bostonInit.body) tasted
      = .ok .normal (left (within ⟨3⟩ (executeAll 5 bostonInit.body)) tasted) :=
    eq_ok_left (by decide +kernel)
  have hreached := ((unchecked_served.starts (.body hframe)).starts .head).starts .expression
  obtain ⟨inner, frame, c, o, hinner, hc, houter, ho, -⟩ :=
    ((receivers_found .unlimited).1 hreached).1 hhops hsuper
  exact ⟨⟨hreached, hhops, hsuper, inner, frame, c, o, hinner, hc, houter, ho⟩, unchecked_served, _,
    (receivers_found .unlimited).2 unchecked_served rfl hframe hbody⟩

/-- The first lookup is not safe. -/
example : (match interpret 9 (Cursor.start (tokens "super.cook;") 0).program.1
      ((Machine.initial .unlimited).learn ((∅ : HopTable).insert 0 0)) with
    | .error halt _ => decide (halt = .breach (.unboundAt "super" 0))
    | .ok _ _ => false) = true := by
  decide +kernel

end Treewalk
