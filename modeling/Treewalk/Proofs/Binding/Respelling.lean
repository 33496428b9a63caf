import Mathlib.Logic.Equiv.Basic
import Treewalk.Proofs.Binding.Distinctness
import Treewalk.Proofs.Binding.Settling

/-!
# The same bindings in another spelling

**A program in which a variable of a scope is spelled anew has the same hop counts.**  Two walks
go on side by side.  In the scope that is meant the two spellings are exchanged, and all other
scopes are the same, so every reference is found in the same scope: what means the variable is
spelled anew, and a reference of the same name that means something else is not, since the new
spelling was in no scope before.
-/

namespace Treewalk

namespace Respelling

variable (r : Respelling)

/-- The two spellings exchanged in the scope that is meant. -/
def exchange (here : Bool) : Equiv.Perm String :=
  if here then Equiv.swap r.old r.new else Equiv.refl String

theorem exchange_of_ne {text : String} (hold : text ≠ r.old) (hnew : text ≠ r.new) (here : Bool) :
    r.exchange here text = text := by
  cases here with
  | false => rfl
  | true => exact Equiv.swap_apply_of_ne_of_ne hold hnew

theorem exchange_self (here : Bool) (text : String) : r.exchange here (r.exchange here text) = text := by
  cases here with
  | false => rfl
  | true => exact Equiv.swap_apply_self _ _ _

/-- A word that is not the new spelling is exchanged for that, or stays. -/
theorem exchange_cases {text : String} (h : text ≠ r.new) (here : Bool) :
    r.exchange here text = text ∨ (text = r.old ∧ r.exchange here text = r.new) := by
  rcases eq_or_ne text r.old with rfl | hold
  · cases here with
    | false => exact Or.inl rfl
    | true => exact Or.inr ⟨rfl, Equiv.swap_apply_left _ _⟩
  · exact Or.inl (r.exchange_of_ne hold h here)

/-- Exchanging twice gives the word again, or the new spelling. -/
theorem exchange_exchange {text : String} (h : text ≠ r.new) (here there : Bool) :
    r.exchange here (r.exchange there text) = text
      ∨ r.exchange here (r.exchange there text) = r.new := by
  rcases eq_or_ne text r.old with rfl | hold
  · cases here <;> cases there <;> simp [exchange]
  · rw [exchange_of_ne r hold h, exchange_of_ne r hold h]
    exact Or.inl rfl

theorem spell_text {name : Name} (h : name.text ≠ r.new) (here : Bool) :
    (r.spell here name).text = r.exchange here name.text := by
  unfold spell
  by_cases hold : name.text = r.old
  · cases here <;> simp [hold, exchange]
  · rw [exchange_of_ne r hold h, if_neg (by simp [hold])]

/-- A name that is not spelled anew stands for itself. -/
theorem exchange_head {marks : List Bool} {text : String} (hnew : text ≠ r.new)
    (hother : marks.headD false = true → text ≠ r.old) :
    text = r.exchange (marks.headD false) text := by
  rcases hmark : marks.headD false with _ | _
  · rfl
  · exact (r.exchange_of_ne (hother hmark) hnew true).symm

end Respelling

/-! ### Scopes -/

/-- In the scopes that are meant the spellings are exchanged; the new one is in none before. -/
inductive ScopesLike (r : Respelling) : List Bool → List Scope → List Scope → Prop
  | nil : ScopesLike r [] [] []
  | cons {mark : Bool} {marks : List Bool} {scope scope' : Scope} {outer outer' : List Scope}
    (hscope : ∀ text : String, scope'[r.exchange mark text]? = scope[text]?) (hnew : r.new ∉ scope)
    (houter : ScopesLike r marks outer outer') :
    ScopesLike r (mark :: marks) (scope :: outer) (scope' :: outer')

namespace ScopesLike

variable {r : Respelling} {mark : Bool} {marks : List Bool} {scopes scopes' : List Scope}

/-- Does the hop count lead to a scope that is meant? -/
def leads (marks : List Bool) (hops : Option Nat) : Bool :=
  hops.any fun hops => marks.getD hops false

/-- A name is in the innermost scope, if its new spelling is. -/
theorem head {scope scope' : Scope} {outer outer' : List Scope}
    (h : ScopesLike r (mark :: marks) (scope :: outer) (scope' :: outer')) {text : String}
    (htext : text ≠ r.new) :
    scope'[r.exchange (leads (mark :: marks) (hopsIn (scope :: outer) text)) text]? = scope[text]? := by
  cases h with
  | cons hscope hnew houter =>
    by_cases hmem : text ∈ scope
    · rw [hopsIn_cons_of_mem hmem]
      exact hscope text
    · generalize leads (mark :: marks) (hopsIn (scope :: outer) text) = there
      rw [← r.exchange_self mark (r.exchange there text), hscope]
      have hnone : ∀ other : String, other ∉ scope → scope[other]? = none := fun other hother =>
        Std.ExtTreeMap.getElem?_eq_none hother
      rw [hnone text hmem]
      rcases r.exchange_exchange htext mark there with heq | heq <;> rw [heq]
      · exact hnone text hmem
      · exact hnone r.new hnew

/-- A reference has the same hop count in its new spelling. -/
theorem hopsIn (h : ScopesLike r marks scopes scopes') {text : String} (htext : text ≠ r.new) :
    Treewalk.hopsIn scopes' (r.exchange (leads marks (Treewalk.hopsIn scopes text)) text)
      = Treewalk.hopsIn scopes text := by
  induction h with
  | nil => rfl
  | @cons mark marks scope scope' outer outer' hscope hnew houter ih =>
    have hhead := (ScopesLike.cons hscope hnew houter).head htext
    by_cases hmem : text ∈ scope
    · rw [hopsIn_cons_of_mem hmem] at hhead ⊢
      refine hopsIn_cons_of_mem ?_ _
      rw [← Std.ExtTreeMap.isSome_getElem?_iff_mem, hhead, Std.ExtTreeMap.isSome_getElem?_iff_mem]
      exact hmem
    · have hleads : leads (mark :: marks) (Treewalk.hopsIn (scope :: outer) text)
          = leads marks (Treewalk.hopsIn outer text) := by
        rw [hopsIn_cons_of_not_mem hmem]
        cases Treewalk.hopsIn outer text <;> rfl
      rw [hleads] at hhead ⊢
      rw [hopsIn_cons_of_not_mem hmem, hopsIn_cons_of_not_mem, ih]
      rw [← Std.ExtTreeMap.isSome_getElem?_iff_mem, hhead, Std.ExtTreeMap.isSome_getElem?_iff_mem]
      exact hmem

theorem enter (h : ScopesLike r marks scopes scopes') (mark : Bool) :
    ScopesLike r (mark :: marks) (∅ :: scopes) (∅ :: scopes') :=
  .cons (fun _ => rfl) (by simp) h

theorem tail (h : ScopesLike r (mark :: marks) scopes scopes') :
    ScopesLike r marks scopes.tail scopes'.tail := by
  cases h with
  | cons _ _ houter => exact houter

/-- A name is put into both scopes, in its spelling. -/
theorem put (h : ScopesLike r marks scopes scopes') {text : String} (htext : text ≠ r.new)
    (standing : Standing) :
    ScopesLike r marks (putName text standing scopes)
      (putName (r.exchange (marks.headD false) text) standing scopes') := by
  cases h with
  | nil => exact .nil
  | @cons mark marks scope scope' outer outer' hscope hnew houter =>
    refine .cons (fun other => ?_) ?_ houter
    · rw [Std.ExtTreeMap.getElem?_insert, Std.ExtTreeMap.getElem?_insert, hscope]
      by_cases hother : text = other
      · rw [if_pos (by simp [hother]), if_pos (by simp [hother])]
      · rw [if_neg (by simpa using hother), if_neg (by simpa using hother)]
    · rw [Std.ExtTreeMap.mem_insert]
      rintro (heq | hmem)
      · exact htext (by simpa using heq)
      · exact hnew hmem

end ScopesLike

/-! ### Steps of the walk -/

namespace Bindings

/-- The second walk, over the tree in the new spelling, has found the same as the first. -/
structure Lockstep (r : Respelling) (marks : List Bool) (b b' : Bindings) : Prop where
  scopes : ScopesLike r marks b.scopes b'.scopes
  hops : b'.hops = b.hops
  topLevel : b'.topLevel = b.topLevel
  errors : b.errors = [] → b'.errors = []

namespace Lockstep

variable {r : Respelling} {mark : Bool} {marks : List Bool} {b b' : Bindings}

theorem note (h : Lockstep r marks b b') (site site' : Name) (fault fault' : BindingFault) :
    Lockstep r marks (b.note site fault) (b'.note site' fault') :=
  ⟨h.scopes, h.hops, h.topLevel, fun herrors => by simp [Bindings.note] at herrors⟩

/-- The second walk notes an error only if the first does. -/
theorem noteIf (h : Lockstep r marks b b') {condition condition' : Bool} (site site' : Name)
    (fault fault' : BindingFault) (hcondition : condition' = true → condition = true) :
    Lockstep r marks (b.noteIf condition site fault) (b'.noteIf condition' site' fault') where
  scopes := by
    rw [scopes_noteIf, scopes_noteIf]
    exact h.scopes
  hops := by cases condition <;> cases condition' <;> exact h.hops
  topLevel := by cases condition <;> cases condition' <;> exact h.topLevel
  errors herrors := by
    have hfirst := noteIf_errors_eq_nil herrors
    subst hfirst
    cases condition' with
    | false => exact h.errors herrors
    | true => cases hcondition rfl

theorem put (h : Lockstep r marks b b') {text text' : String} (htext : text ≠ r.new)
    (htext' : text' = r.exchange (marks.headD false) text) (standing : Standing) :
    Lockstep r marks (b.put text standing) (b'.put text' standing) := by
  have hput : ∀ (b : Bindings) (text : String), (b.put text standing).hops = b.hops
      ∧ (b.put text standing).topLevel = b.topLevel ∧ (b.put text standing).errors = b.errors := by
    intro b text
    unfold Bindings.put
    split <;> exact ⟨rfl, rfl, rfl⟩
  obtain ⟨hhops, htopLevel, herrors⟩ := hput b text
  obtain ⟨hhops', htopLevel', herrors'⟩ := hput b' text'
  refine ⟨?_, by rw [hhops, hhops', h.hops], by rw [htopLevel, htopLevel', h.topLevel],
    by rw [herrors, herrors']; exact h.errors⟩
  rw [scopes_put, scopes_put, htext']
  exact h.scopes.put htext standing

theorem enter (h : Lockstep r marks b b') (mark : Bool) :
    Lockstep r (mark :: marks) b.enter b'.enter :=
  ⟨h.scopes.enter mark, h.hops, h.topLevel, h.errors⟩

theorem leave (h : Lockstep r (mark :: marks) b b') : Lockstep r marks b.leave b'.leave :=
  ⟨h.scopes.tail, h.hops, h.topLevel, h.errors⟩

/-- Of a declared name, both scopes have it or none. -/
theorem isTaken (h : Lockstep r marks b b') {text text' : String}
    (htext' : text' = r.exchange (marks.headD false) text) : b'.isTaken text' = b.isTaken text := by
  have hscopes := h.scopes
  unfold Bindings.isTaken
  rw [htext']
  generalize b.scopes = scopes at hscopes
  generalize b'.scopes = scopes' at hscopes
  cases hscopes with
  | nil => rfl
  | cons hscope _ _ =>
    simp only [List.head?_cons, Option.any_some, List.headD_cons]
    rw [Std.ExtTreeMap.contains_eq_isSome_getElem?, hscope, ← Std.ExtTreeMap.contains_eq_isSome_getElem?]

theorem declare (h : Lockstep r marks b b') {name name' : Name} (hname : name.text ≠ r.new)
    (hname' : name'.text = r.exchange (marks.headD false) name.text) :
    Lockstep r marks (b.declare name) (b'.declare name') :=
  (h.put hname hname' .declared).noteIf _ _ _ _ (by rw [h.isTaken hname']; exact id)

theorem define (h : Lockstep r marks b b') {name name' : Name} (hname : name.text ≠ r.new)
    (hname' : name'.text = r.exchange (marks.headD false) name.text) :
    Lockstep r marks (b.define name) (b'.define name') :=
  h.put hname hname' .defined

/-- A reference is recorded with the same hop count. -/
theorem refer (h : Lockstep r marks b b') (around : Surroundings) {id : Nat} {text text' : String}
    (htext : text ≠ r.new) (hid : r.table[id]? = hopsIn b.scopes text)
    (htext' : text' = r.exchange (r.isMeant marks id) text) :
    Lockstep r marks (b.refer around id text) (b'.refer around id text') := by
  have hfind : (b'.scopes.findIdx? fun scope => scope.contains text')
      = b.scopes.findIdx? fun scope => scope.contains text := by
    have hhops := h.scopes.hopsIn htext
    rw [← hid] at hhops
    rw [htext']
    exact hhops.trans hid
  refine ⟨by rw [scopes_refer, scopes_refer]; exact h.scopes, ?_, ?_, ?_⟩
  · unfold Bindings.refer
    rw [hfind]
    split
    · exact h.hops
    · simp only [h.hops]
  · unfold Bindings.refer
    rw [hfind]
    split
    · exact h.topLevel
    · simp only [h.topLevel]
  · rw [refer_errors, refer_errors]
    exact h.errors

theorem isUnready (h : Lockstep r marks b b') {id : Nat} {text text' : String} (htext : text ≠ r.new)
    (hid : r.table[id]? = hopsIn b.scopes text)
    (htext' : text' = r.exchange (r.isMeant marks id) text) : b'.isUnready text' = b.isUnready text := by
  have hscopes := h.scopes
  unfold Bindings.isUnready Respelling.isMeant at *
  rw [htext', hid]
  generalize b.scopes = scopes at hscopes
  generalize b'.scopes = scopes' at hscopes
  cases hscopes with
  | nil => rfl
  | cons hscope hnew houter =>
    have hhead := (ScopesLike.cons hscope hnew houter).head htext
    exact congrArg (· == some Standing.declared) hhead

theorem read (h : Lockstep r marks b b') (around : Surroundings) {name : Name} {id : Nat}
    (hname : name.text ≠ r.new) (hid : r.table[id]? = hopsIn b.scopes name.text) :
    Lockstep r marks (b.read around name id)
      (b'.read around (r.spell (r.isMeant marks id) name) id) := by
  have htext := r.spell_text hname (r.isMeant marks id)
  unfold Bindings.read
  refine (h.noteIf _ _ _ _ ?_).refer around hname (by rw [scopes_noteIf]; exact hid) htext
  rw [h.isUnready hname hid htext]
  exact fun h => h

theorem checkSuper (h : Lockstep r marks b b') (around : Surroundings) (site : Name) :
    Lockstep r marks (b.checkSuper around site) (b'.checkSuper around site) := by
  unfold Bindings.checkSuper
  split
  · exact h.note site site _ _
  · exact h.note site site _ _
  · exact h

theorem checkReturn (h : Lockstep r marks b b') (around : Surroundings) (line : Nat)
    (hasValue : Bool) :
    Lockstep r marks (b.checkReturn around line hasValue) (b'.checkReturn around line hasValue) :=
  (h.noteIf _ _ _ _ fun h => h).noteIf _ _ _ _ fun h => h

theorem parameters {params : List Name} (hparams : ∀ param ∈ params, param.text ≠ r.new)
    (h : Lockstep r (mark :: marks) b b') :
    Lockstep r (mark :: marks) (b.parameters params) (b'.parameters (params.map (r.spell mark))) := by
  unfold Bindings.parameters
  induction params generalizing b b' with
  | nil => exact h
  | cons param params ih =>
    have hnew := hparams param List.mem_cons_self
    have htext := r.spell_text hnew mark
    exact ih (fun other hother => hparams other (List.mem_cons_of_mem _ hother))
      ((h.declare hnew htext).define hnew htext)

theorem classHead (h : Lockstep r marks b b') (around : Surroundings) {name : Name}
    {superclass : Option Reference} (hnew : IsUnreserved r.new)
    (hname : name.text ≠ r.new) (hother : marks.headD false = true → name.text ≠ r.old)
    (hparent : ∀ parent, superclass = some parent → parent.name.text ≠ r.new)
    (hplaced : SuperclassPlaced r.table b.scopes name superclass) :
    Lockstep r (if superclass.isSome then false :: marks else marks)
      (b.classHead around name superclass)
      (b'.classHead around name (superclass.map (Reference.respell r marks))) := by
  have htext := r.exchange_head hname hother
  have hdefined := (h.declare hname htext).define hname htext
  rcases superclass with _ | parent
  · exact hdefined
  · obtain ⟨hne, hread⟩ := hplaced parent rfl
    have hparent := hparent parent rfl
    have hself : ((parent.respell r marks).name.text == name.text) = true →
        (parent.name.text == name.text) = true := by
      unfold Reference.respell Respelling.spell
      split
      · exact fun heq => absurd (beq_iff_eq.mp heq).symm hname
      · exact id
    have hnoted := hdefined.noteIf parent.name (parent.respell r marks).name .selfInheritance
      .selfInheritance hself
    have hhops : r.table[parent.id]? = hopsIn (((b.declare name).define name).noteIf
        (parent.name.text == name.text) parent.name .selfInheritance).scopes parent.name.text := by
      rw [scopes_noteIf, scopes_define, scopes_declare, putName_putName, hopsIn_putName hne]
      exact hread.hops
    exact ((hnoted.read around hparent hhops).enter false).put hnew.ne_super.symm
      (by rfl) .defined

end Lockstep

end Bindings

/-! ### The walk -/

open Bindings

section Walks

variable {r : Respelling} {kept : Nat → Prop}

mutual

theorem Expr.lockstep_bindNames (hold : IsUnreserved r.old) (hnew : IsUnreserved r.new)
    (around : Surroundings) {marks : List Bool} : ∀ (e : Expr) {b b' : Bindings},
    e.Avoids r.new → e.Placed r.table b.scopes → Lockstep r marks b b' →
    Lockstep r marks (e.bindNames around b) ((e.respell r marks).bindNames around b')
  | .literal _, _, _, _, _, h => h
  | .grouping inner, _, _, ha, hp, h => inner.lockstep_bindNames hold hnew around ha hp h
  | .unary _ _ operand, _, _, ha, hp, h => operand.lockstep_bindNames hold hnew around ha hp h
  | .binary _ _ left right, _, _, ha, hp, h =>
    right.lockstep_bindNames hold hnew around ha.2 (by rw [left.scopes_bindNames]; exact hp.2)
      (left.lockstep_bindNames hold hnew around ha.1 hp.1 h)
  | .logical _ _ left right, _, _, ha, hp, h =>
    right.lockstep_bindNames hold hnew around ha.2 (by rw [left.scopes_bindNames]; exact hp.2)
      (left.lockstep_bindNames hold hnew around ha.1 hp.1 h)
  | .variable name id, _, _, ha, hp, h => h.read around ha hp.hops
  | .assign name id value, _, _, ha, hp, h =>
    (value.lockstep_bindNames hold hnew around ha.1 hp.1 h).refer around ha.2
      (by rw [value.scopes_bindNames]; exact hp.2) (r.spell_text ha.2 _)
  | .call callee _ args, _, _, ha, hp, h =>
    lockstep_bindArguments hold hnew around args ha.2
      (by rw [callee.scopes_bindNames]; exact hp.2)
      (callee.lockstep_bindNames hold hnew around ha.1 hp.1 h)
  | .get object _, _, _, ha, hp, h => object.lockstep_bindNames hold hnew around ha hp h
  | .set object _ value, _, _, ha, hp, h =>
    value.lockstep_bindNames hold hnew around ha.2 (by rw [object.scopes_bindNames]; exact hp.2)
      (object.lockstep_bindNames hold hnew around ha.1 hp.1 h)
  | .this line id, b, _, _, hp, h =>
    (h.noteIf _ _ _ _ fun h => h).refer around hnew.ne_this.symm
      (by rw [scopes_noteIf]; exact hp.hops)
      (r.exchange_of_ne hold.ne_this.symm hnew.ne_this.symm _).symm
  | .super line id _, b, _, _, hp, h => by
    obtain ⟨inner, htable, hsuper, -⟩ := hp
    exact (h.checkSuper around _).refer around hnew.ne_super.symm
      (by rw [scopes_checkSuper, hsuper]; exact htable)
      (r.exchange_of_ne hold.ne_super.symm hnew.ne_super.symm _).symm

theorem lockstep_bindArguments (hold : IsUnreserved r.old) (hnew : IsUnreserved r.new)
    (around : Surroundings) {marks : List Bool} : ∀ (args : List Expr) {b b' : Bindings},
    AvoidedArguments r.new args → PlacedArguments r.table b.scopes args → Lockstep r marks b b' →
    Lockstep r marks (bindArguments around args b)
      (bindArguments around (respellArguments r marks args) b')
  | [], _, _, _, _, h => h
  | argument :: args, _, _, ha, hp, h =>
    lockstep_bindArguments hold hnew around args ha.2
      (by rw [argument.scopes_bindNames]; exact hp.2)
      (argument.lockstep_bindNames hold hnew around ha.1 hp.1 h)

end

theorem lockstep_bindOptional (hold : IsUnreserved r.old) (hnew : IsUnreserved r.new)
    (around : Surroundings) {marks : List Bool} {value : Option Expr} {b b' : Bindings}
    (ha : ∀ result, value = some result → result.Avoids r.new)
    (hp : ∀ result, value = some result → result.Placed r.table b.scopes)
    (h : Lockstep r marks b b') :
    Lockstep r marks (bindOptional around value b)
      (bindOptional around (value.map (Expr.respell r marks)) b') := by
  cases value with
  | none => exact h
  | some value => exact value.lockstep_bindNames hold hnew around (ha value rfl) (hp value rfl) h

theorem FunctionDecl.name_respell (r : Respelling) (marks : List Bool) (first : Nat)
    (f : FunctionDecl) : (f.respell r marks first).name = f.name := by
  cases f
  rfl

theorem FunctionDecl.methodContext_respell (r : Respelling) (marks : List Bool) (first : Nat)
    (f : FunctionDecl) : (f.respell r marks first).methodContext = f.methodContext := by
  simp [FunctionDecl.methodContext, FunctionDecl.isInitializer, FunctionDecl.name_respell]

mutual

/-- The walks over a placed statement and over the same in the new spelling go in step. -/
theorem Stmt.lockstep_bindNames (hold : IsUnreserved r.old) (hnew : IsUnreserved r.new)
    (around : Surroundings) {marks : List Bool} : ∀ (s : Stmt) {first : Nat} {b b' : Bindings},
    s.WellFormed → s.Avoids r.new → s.Separate r (marks.headD false) first →
    s.Placed r.table kept b.scopes → Lockstep r marks b b' →
    Lockstep r marks (s.bindNames around b) ((s.respell r marks first).bindNames around b')
  | .expression value, _, _, _, _, ha, _, hp, h => value.lockstep_bindNames hold hnew around ha hp h
  | .print value, _, _, _, _, ha, _, hp, h => value.lockstep_bindNames hold hnew around ha hp h
  | .var name initializer, _, b, b', _, ha, _, hp, h => by
    rw [Stmt.Avoids] at ha
    rw [Stmt.Placed] at hp
    have htext := r.spell_text ha.1 (marks.headD false)
    refine (lockstep_bindOptional hold hnew around ha.2 (fun value hvalue => ?_)
      (h.declare ha.1 htext)).define ha.1 htext
    rw [scopes_declare]
    exact hp value hvalue
  | .block body, first, b, b', hs, ha, hsep, hp, h => by
    rw [Stmt.WellFormed] at hs
    rw [Stmt.Avoids] at ha
    rw [Stmt.Separate] at hsep
    rw [Stmt.Placed] at hp
    have hbody : SeparateStatements r (((first == r.scope) :: marks).headD false) (first + 1) body := hsep
    exact (lockstep_bindStatements hold hnew around body hs ha hbody hp (h.enter _)).leave
  | .ifElse condition thenBranch none, first, b, b', hs, ha, hsep, hp, h => by
    rw [Stmt.WellFormed] at hs
    rw [Stmt.Avoids] at ha
    rw [Stmt.Separate] at hsep
    rw [Stmt.Placed] at hp
    exact thenBranch.lockstep_bindNames hold hnew around hs.2.1 ha.2 hsep
      (by rw [condition.scopes_bindNames]; exact hp.2.1)
      (condition.lockstep_bindNames hold hnew around ha.1 hp.1 h)
  | .ifElse condition thenBranch (some elseBranch), first, b, b', hs, ha, hsep, hp, h => by
    rw [Stmt.WellFormed] at hs
    rw [Stmt.Avoids] at ha
    rw [Stmt.Separate] at hsep
    rw [Stmt.Placed] at hp
    have hthen := thenBranch.lockstep_bindNames hold hnew around hs.2.1.1 ha.2.1 hsep.1
      (by rw [condition.scopes_bindNames]; exact hp.2.1.1)
      (condition.lockstep_bindNames hold hnew around ha.1 hp.1 h)
    refine elseBranch.lockstep_bindNames hold hnew around hs.2.2.1 ha.2.2 hsep.2 ?_ hthen
    rw [thenBranch.scopes_bindNames around hs.2.1.1, Stmt.scopesAfter_of_plain hs.2.1.2,
      condition.scopes_bindNames]
    exact hp.2.2.1
  | .whileLoop condition body, first, b, b', hs, ha, hsep, hp, h => by
    rw [Stmt.WellFormed] at hs
    rw [Stmt.Avoids] at ha
    rw [Stmt.Separate] at hsep
    rw [Stmt.Placed] at hp
    exact body.lockstep_bindNames hold hnew around hs.2.1 ha.2 hsep
      (by rw [condition.scopes_bindNames]; exact hp.2.1)
      (condition.lockstep_bindNames hold hnew around ha.1 hp.1 h)
  | .function declaration, first, b, b', hs, ha, hsep, hp, h => by
    rw [Stmt.WellFormed] at hs
    rw [Stmt.Avoids] at ha
    rw [Stmt.Separate] at hsep
    rw [Stmt.Placed] at hp
    rw [Stmt.respell, Stmt.bindNames, Stmt.bindNames, FunctionDecl.name_respell]
    have hname := declaration.name_ne_of_avoids ha
    have htext := r.exchange_head hname hsep.1
    refine declaration.lockstep_bindNames hold hnew _ hs ha hsep.2 ?_
      ((h.declare hname htext).define hname htext)
    rw [scopes_define, scopes_declare, putName_putName]
    exact hp
  | .return line value, _, b, b', _, ha, _, hp, h => by
    rw [Stmt.Avoids] at ha
    rw [Stmt.Placed] at hp
    rw [Stmt.respell, Stmt.bindNames, Stmt.bindNames, Option.isSome_map]
    refine lockstep_bindOptional hold hnew around ha (fun result hresult => ?_)
      (h.checkReturn around line value.isSome)
    rw [scopes_checkReturn]
    exact hp result hresult
  | .class name superclass methods, first, b, b', hs, ha, hsep, hp, h => by
    rw [Stmt.WellFormed] at hs
    rw [Stmt.Avoids] at ha
    rw [Stmt.Separate] at hsep
    rw [Stmt.Placed] at hp
    rw [Stmt.respell, Stmt.bindNames, Stmt.bindNames, Option.isSome_map]
    generalize (if superclass.isSome then ClassContext.derived else .plain) = kind
    have hhead := h.classHead { around with inClass := kind } hnew ha.1 hsep.1 ha.2.1 hp.1
    have hthis := (hhead.enter false).put hnew.ne_this.symm (show "this" = r.exchange false "this" from rfl) .defined
    have hmethods := lockstep_bindMethods hold hnew { around with inClass := kind } methods hs.2.2
      ha.2.2 hsep.2 (by rw [scopes_classHead]; exact hp.2) hthis
    have hleave := hmethods.leave
    rcases superclass with _ | parent
    · exact hleave
    · exact hleave.leave

theorem FunctionDecl.lockstep_bindNames (hold : IsUnreserved r.old) (hnew : IsUnreserved r.new)
    (around : Surroundings) {marks : List Bool} : ∀ (f : FunctionDecl) {first : Nat}
    {b b' : Bindings}, f.WellFormed → f.Avoids r.new → f.Separate r first →
    f.Placed r.table kept b.scopes → Lockstep r marks b b' →
    Lockstep r marks (f.bindNames around b) ((f.respell r marks first).bindNames around b')
  | ⟨name, params, body⟩, first, b, b', hf, ha, hsep, hp, h => by
    rw [FunctionDecl.WellFormed] at hf
    rw [FunctionDecl.Avoids] at ha
    rw [FunctionDecl.Separate] at hsep
    rw [FunctionDecl.Placed] at hp
    rw [FunctionDecl.respell, FunctionDecl.bindNames, FunctionDecl.bindNames]
    have hbody : SeparateStatements r (((first == r.scope) :: marks).headD false) (first + 1) body := hsep
    refine (lockstep_bindStatements hold hnew around body hf.2.2 ha.2.2 hbody ?_
      (Lockstep.parameters ha.2.1 (h.enter _))).leave
    rw [scopes_parameters]
    exact hp.2

theorem lockstep_bindStatements (hold : IsUnreserved r.old) (hnew : IsUnreserved r.new)
    (around : Surroundings) {marks : List Bool} : ∀ (body : List Stmt) {first : Nat}
    {b b' : Bindings}, WellFormedStatements body → AvoidedStatements r.new body →
    SeparateStatements r (marks.headD false) first body → PlacedStatements r.table kept b.scopes body →
    Lockstep r marks b b' →
    Lockstep r marks (bindStatements around body b)
      (bindStatements around (respellStatements r marks first body) b')
  | [], _, _, _, _, _, _, _, h => h
  | s :: rest, first, b, b', hbody, ha, hsep, hp, h => by
    rw [WellFormedStatements] at hbody
    rw [AvoidedStatements] at ha
    rw [SeparateStatements] at hsep
    rw [PlacedStatements] at hp
    refine lockstep_bindStatements hold hnew around rest hbody.2 ha.2 hsep.2 ?_
      (s.lockstep_bindNames hold hnew around hbody.1 ha.1 hsep.1 hp.1 h)
    rw [s.scopes_bindNames around hbody.1]
    exact hp.2

theorem lockstep_bindMethods (hold : IsUnreserved r.old) (hnew : IsUnreserved r.new)
    (around : Surroundings) {marks : List Bool} : ∀ (methods : List FunctionDecl) {first : Nat}
    {b b' : Bindings}, WellFormedMethods methods → AvoidedMethods r.new methods →
    SeparateMethods r first methods → PlacedMethods r.table kept b.scopes methods →
    Lockstep r marks b b' →
    Lockstep r marks (bindMethods around methods b)
      (bindMethods around (respellMethods r marks first methods) b')
  | [], _, _, _, _, _, _, _, h => h
  | method :: rest, first, b, b', hmethods, ha, hsep, hp, h => by
    rw [WellFormedMethods] at hmethods
    rw [AvoidedMethods] at ha
    rw [SeparateMethods] at hsep
    rw [PlacedMethods] at hp
    rw [respellMethods, bindMethods, bindMethods, FunctionDecl.methodContext_respell]
    refine lockstep_bindMethods hold hnew around rest hmethods.2 ha.2 hsep.2 ?_
      (method.lockstep_bindNames hold hnew _ hmethods.1 ha.1 hsep.1 hp.1 h)
    rw [method.scopes_bindNames _ hmethods.1]
    exact hp.2

end

end Walks

end Treewalk
