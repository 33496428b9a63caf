import Treewalk.Proofs.Binding.Walk
import Treewalk.Proofs.Syntax.Moving

/-!
# Binding behind other code

**A walk does the same whatever was collected before it, on whatever lines the tree stands and
with whatever numbers.**  What counts is the scopes.  So the bindings of two programs, one behind
the other, are those of the one with those of the other added to them.
-/

namespace Treewalk

def BindingError.move (σ : Shift) (e : BindingError) : BindingError :=
  ⟨e.site.move σ, e.fault⟩

namespace Bindings

/-- The second walk has collected what the first has, from a tree that was moved, and before that
what `base` holds. -/
structure Displaced (σ : Shift) (base b b' : Bindings) : Prop where
  scopes : b'.scopes = b.scopes
  hops : ∀ id, b'.hops[σ.id id]? = (b.hops[id]?).or base.hops[σ.id id]?
  topLevel : b'.topLevel = base.topLevel ++ b.topLevel.map σ.id
  errors : b'.errors = base.errors ++ b.errors.map (BindingError.move σ)

section Steps

variable {σ : Shift} {base b b' : Bindings}

theorem displaced_empty (σ : Shift) (hbase : base.scopes = []) : Displaced σ base .empty base where
  scopes := hbase
  hops id := by simp [empty]
  topLevel := (List.append_nil _).symm
  errors := (List.append_nil _).symm

/-- A step that changes nothing but the scopes. -/
theorem Displaced.rescope (h : Displaced σ base b b') {scopes scopes' : List Scope}
    (hscopes : scopes' = scopes) :
    Displaced σ base { b with scopes := scopes } { b' with scopes := scopes' } :=
  ⟨hscopes, h.hops, h.topLevel, h.errors⟩

theorem Displaced.note (h : Displaced σ base b b') (site : Name) (fault : BindingFault) :
    Displaced σ base (b.note site fault) (b'.note (site.move σ) fault) where
  scopes := h.scopes
  hops := h.hops
  topLevel := h.topLevel
  errors := by
    show b'.errors ++ _ = base.errors ++ (b.errors ++ _).map (BindingError.move σ)
    rw [h.errors, List.map_append, List.append_assoc]
    rfl

theorem Displaced.noteIf (h : Displaced σ base b b') {condition condition' : Bool}
    (hcondition : condition' = condition) (site : Name) (fault : BindingFault) :
    Displaced σ base (b.noteIf condition site fault) (b'.noteIf condition' (site.move σ) fault) := by
  subst hcondition
  unfold Bindings.noteIf
  split
  · exact h.note site fault
  · exact h

theorem Displaced.enter (h : Displaced σ base b b') : Displaced σ base b.enter b'.enter :=
  h.rescope (by rw [h.scopes])

theorem Displaced.leave (h : Displaced σ base b b') : Displaced σ base b.leave b'.leave :=
  h.rescope (by rw [h.scopes])

theorem Displaced.put (h : Displaced σ base b b') (text : String) (standing : Standing) :
    Displaced σ base (b.put text standing) (b'.put text standing) := by
  unfold Bindings.put
  rw [h.scopes]
  split
  · exact h
  · exact h.rescope rfl

theorem Displaced.declare (h : Displaced σ base b b') (name : Name) :
    Displaced σ base (b.declare name) (b'.declare (name.move σ)) :=
  (h.put name.text .declared).noteIf (by simp only [Bindings.isTaken, h.scopes, Name.text_move])
    name .alreadyDeclared

theorem Displaced.define (h : Displaced σ base b b') (name : Name) :
    Displaced σ base (b.define name) (b'.define (name.move σ)) :=
  h.put name.text .defined

theorem Displaced.refer (hσ : Function.Injective σ.id) (h : Displaced σ base b b')
    (around : Surroundings) (id : Nat) (text : String) :
    Displaced σ base (b.refer around id text) (b'.refer around (σ.id id) text) := by
  unfold Bindings.refer
  rw [h.scopes]
  split
  · exact h
  · refine ⟨rfl, fun other => ?_, ?_, h.errors⟩
    · simp only [Std.ExtTreeMap.getElem?_insert]
      by_cases hid : id = other
      · subst hid
        simp
      · have hne : ¬ compare id other = .eq := by simpa using hid
        have hne' : ¬ compare (σ.id id) (σ.id other) = .eq := by
          simpa using fun heq => hid (hσ heq)
        rw [if_neg hne, if_neg hne']
        exact h.hops other
    · dsimp only
      split
      · rw [h.topLevel, List.map_append, List.append_assoc]
        rfl
      · exact h.topLevel

theorem Displaced.read (hσ : Function.Injective σ.id) (h : Displaced σ base b b')
    (around : Surroundings) (name : Name) (id : Nat) :
    Displaced σ base (b.read around name id) (b'.read around (name.move σ) (σ.id id)) :=
  (h.noteIf (by simp only [Bindings.isUnready, h.scopes, Name.text_move]) name .ownInitializer).refer
    hσ around id name.text

theorem Displaced.checkSuper (h : Displaced σ base b b') (around : Surroundings) (site : Name) :
    Displaced σ base (b.checkSuper around site) (b'.checkSuper around (site.move σ)) := by
  unfold Bindings.checkSuper
  split
  · exact h.note site _
  · exact h.note site _
  · exact h

theorem Displaced.checkReturn (h : Displaced σ base b b') (around : Surroundings) (line : Nat)
    (hasValue : Bool) :
    Displaced σ base (b.checkReturn around line hasValue)
      (b'.checkReturn around (σ.line line) hasValue) :=
  (h.noteIf rfl ⟨"return", line⟩ .topLevelReturn).noteIf rfl ⟨"return", line⟩ .initializerReturn

theorem Displaced.parameters (h : Displaced σ base b b') (params : List Name) :
    Displaced σ base (b.parameters params) (b'.parameters (params.map (Name.move σ))) := by
  unfold Bindings.parameters
  induction params generalizing b b' with
  | nil => exact h
  | cons param params ih => exact ih ((h.declare param).define param)

theorem Displaced.classHead (hσ : Function.Injective σ.id) (h : Displaced σ base b b')
    (around : Surroundings) (name : Name) (superclass : Option Reference) :
    Displaced σ base (b.classHead around name superclass)
      (b'.classHead around (name.move σ) (superclass.map (Reference.move σ))) := by
  have hdefined := (h.declare name).define name
  unfold Bindings.classHead
  rcases superclass with _ | superclass
  · exact hdefined
  · exact ((hdefined.noteIf rfl superclass.name .selfInheritance).read hσ around superclass.name
      superclass.id).enter.put "super" .defined

end Steps

end Bindings

open Bindings

/-! ### Expressions -/

section Walks

variable {σ : Shift} {base : Bindings} (hσ : Function.Injective σ.id)

mutual

theorem Expr.displaced_bindNames (hσ : Function.Injective σ.id) (around : Surroundings) :
    ∀ (e : Expr) {b b' : Bindings}, Displaced σ base b b' →
    Displaced σ base (e.bindNames around b) ((e.move σ).bindNames around b')
  | .literal _, _, _, h => h
  | .grouping inner, _, _, h => inner.displaced_bindNames hσ around h
  | .unary _ _ operand, _, _, h => operand.displaced_bindNames hσ around h
  | .binary _ _ left right, _, _, h =>
    right.displaced_bindNames hσ around (left.displaced_bindNames hσ around h)
  | .logical _ _ left right, _, _, h =>
    right.displaced_bindNames hσ around (left.displaced_bindNames hσ around h)
  | .variable name id, _, _, h => h.read hσ around name id
  | .assign name id value, _, _, h =>
    (value.displaced_bindNames hσ around h).refer hσ around id name.text
  | .call callee _ args, _, _, h =>
    displaced_bindArguments hσ around args (callee.displaced_bindNames hσ around h)
  | .get object _, _, _, h => object.displaced_bindNames hσ around h
  | .set object _ value, _, _, h =>
    value.displaced_bindNames hσ around (object.displaced_bindNames hσ around h)
  | .this line id, _, _, h => (h.noteIf rfl ⟨"this", line⟩ .thisOutsideClass).refer hσ around id "this"
  | .super line id _, _, _, h => (h.checkSuper around ⟨"super", line⟩).refer hσ around id "super"

theorem displaced_bindArguments (hσ : Function.Injective σ.id) (around : Surroundings) :
    ∀ (args : List Expr) {b b' : Bindings}, Displaced σ base b b' →
    Displaced σ base (bindArguments around args b) (bindArguments around (moveArguments σ args) b')
  | [], _, _, h => h
  | argument :: args, _, _, h =>
    displaced_bindArguments hσ around args (argument.displaced_bindNames hσ around h)

end

theorem displaced_bindOptional (hσ : Function.Injective σ.id) (around : Surroundings)
    (value : Option Expr) {b b' : Bindings} (h : Displaced σ base b b') :
    Displaced σ base (bindOptional around value b)
      (bindOptional around (value.map (Expr.move σ)) b') := by
  cases value with
  | none => exact h
  | some value => exact value.displaced_bindNames hσ around h

/-! ### Statements -/

theorem FunctionDecl.methodContext_move (f : FunctionDecl) :
    (f.move σ).methodContext = f.methodContext := by
  simp [FunctionDecl.methodContext]

mutual

theorem Stmt.displaced_bindNames (hσ : Function.Injective σ.id) (around : Surroundings) :
    ∀ (s : Stmt) {b b' : Bindings}, Displaced σ base b b' →
    Displaced σ base (s.bindNames around b) ((s.move σ).bindNames around b')
  | .expression value, _, _, h => value.displaced_bindNames hσ around h
  | .print value, _, _, h => value.displaced_bindNames hσ around h
  | .var name initializer, _, _, h =>
    (displaced_bindOptional hσ around initializer (h.declare name)).define name
  | .block body, _, _, h => (displaced_bindStatements hσ around body h.enter).leave
  | .ifElse condition thenBranch none, _, _, h =>
    thenBranch.displaced_bindNames hσ around (condition.displaced_bindNames hσ around h)
  | .ifElse condition thenBranch (some elseBranch), _, _, h =>
    elseBranch.displaced_bindNames hσ around
      (thenBranch.displaced_bindNames hσ around (condition.displaced_bindNames hσ around h))
  | .whileLoop condition body, _, _, h =>
    body.displaced_bindNames hσ around (condition.displaced_bindNames hσ around h)
  | .function declaration, b, b', h => by
    rw [Stmt.move, Stmt.bindNames, Stmt.bindNames, FunctionDecl.name_move]
    exact declaration.displaced_bindNames hσ _
      ((h.declare declaration.name).define declaration.name)
  | .return line value, b, b', h => by
    rw [Stmt.move, Stmt.bindNames, Stmt.bindNames, Option.isSome_map]
    exact displaced_bindOptional hσ around value (h.checkReturn around line value.isSome)
  | .class name superclass methods, b, b', h => by
    rw [Stmt.move, Stmt.bindNames, Stmt.bindNames, Option.isSome_map]
    have hmethods : ∀ kind : ClassContext, _ := fun kind =>
      (displaced_bindMethods hσ { around with inClass := kind } methods
        ((h.classHead hσ { around with inClass := kind } name superclass).enter.put "this"
          .defined)).leave
    split
    · exact (hmethods _).leave
    · exact hmethods _

theorem FunctionDecl.displaced_bindNames (hσ : Function.Injective σ.id) (around : Surroundings) :
    ∀ (f : FunctionDecl) {b b' : Bindings}, Displaced σ base b b' →
    Displaced σ base (f.bindNames around b) ((f.move σ).bindNames around b')
  | ⟨_, params, body⟩, b, b', h => by
    rw [FunctionDecl.move, FunctionDecl.bindNames, FunctionDecl.bindNames]
    exact (displaced_bindStatements hσ around body (h.enter.parameters params)).leave

theorem displaced_bindStatements (hσ : Function.Injective σ.id) (around : Surroundings) :
    ∀ (body : List Stmt) {b b' : Bindings}, Displaced σ base b b' →
    Displaced σ base (bindStatements around body b)
      (bindStatements around (moveStatements σ body) b')
  | [], _, _, h => h
  | s :: rest, _, _, h =>
    displaced_bindStatements hσ around rest (s.displaced_bindNames hσ around h)

theorem displaced_bindMethods (hσ : Function.Injective σ.id) (around : Surroundings) :
    ∀ (methods : List FunctionDecl) {b b' : Bindings}, Displaced σ base b b' →
    Displaced σ base (bindMethods around methods b)
      (bindMethods around (moveMethods σ methods) b')
  | [], _, _, h => h
  | method :: rest, b, b', h => by
    rw [moveMethods, bindMethods, bindMethods, FunctionDecl.methodContext_move]
    exact displaced_bindMethods hσ around rest (method.displaced_bindNames hσ _ h)

end

end Walks

/-! ### Programs -/

theorem bindStatements_append (around : Surroundings) (first rest : List Stmt) (b : Bindings) :
    bindStatements around (first ++ rest) b
      = bindStatements around rest (bindStatements around first b) := by
  induction first generalizing b with
  | nil => rfl
  | cons s first ih => exact ih _

/-- A program with other numbers has the same errors. -/
theorem Program.errors_moved {σ : Shift} (hσ : Function.Injective σ.id) (program : Program) :
    (Program.bindings (moveStatements σ program)).errors
      = (Program.bindings program).errors.map (BindingError.move σ) :=
  (displaced_bindStatements hσ .topLevel program (displaced_empty σ rfl)).errors

/-- The bindings of two programs one behind the other. -/
theorem Program.bindings_append (f : Nat → Nat) {first : Program} (rest : Program)
    (hfirst : WellFormedStatements first) :
    Displaced (.ofLines f) (Program.bindings first) (Program.bindings rest)
      (Program.bindings (first ++ moveStatements (.ofLines f) rest)) := by
  have hscopes : (Program.bindings first).scopes = [] := by
    rw [Program.bindings, scopes_bindStatements _ first hfirst]
    exact scopesAfterAll_nil first
  show Displaced _ _ _ (bindStatements .topLevel (first ++ _) .empty)
  rw [bindStatements_append]
  exact displaced_bindStatements (fun _ _ h => h) .topLevel rest (displaced_empty _ hscopes)

end Treewalk
