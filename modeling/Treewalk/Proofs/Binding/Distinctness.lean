import Mathlib.Data.List.Pairwise
import Treewalk.Proofs.Binding.Placement
import Treewalk.Proofs.Syntax.Respelling

/-!
# Names of one scope are distinct

**In a source without errors, no scope declares a name twice.**  So where a scope has a variable
or a parameter of some name, no function and no class of the scope has it.
-/

namespace Treewalk

/-! ### One scope -/

/-- No two of these statements declare the same name. -/
abbrev DistinctNames : List Stmt → Prop :=
  List.Pairwise fun s t => ∀ text, s.declaredName = some text → t.declaredName ≠ some text

theorem not_mem_of_declare {b : Bindings} {name : Name} {scope : Scope} {outer : List Scope}
    (hb : b.scopes = scope :: outer) (h : (b.declare name).errors = []) : name.text ∉ scope := by
  intro hmem
  have htaken : b.isTaken name.text = true := by
    rw [Bindings.isTaken, hb]
    exact Std.ExtTreeMap.contains_iff_mem.mpr hmem
  rw [Bindings.declare, htaken] at h
  simp [Bindings.noteIf, Bindings.note] at h

theorem declare_of_classHead {around : Surroundings} {name : Name} {superclass : Option Reference}
    {b : Bindings} (h : (b.classHead around name superclass).errors = []) :
    (b.declare name).errors = [] := by
  have hdefine := Bindings.extends_define around (b.declare name) name
  rcases superclass with _ | superclass
  · exact hdefine.errors_eq_nil h
  · have hrest := ((hdefine.trans (Bindings.extends_noteIf around _
      (superclass.name.text == name.text) superclass.name .selfInheritance)).refl_trans
      (Bindings.extends_read around _ superclass.name superclass.id)).trans_refl
      ((Bindings.extends_enter around _).trans (Bindings.extends_put around _ "super" .defined))
    exact hrest.errors_eq_nil h

theorem classHead_of_bindNames {around : Surroundings} {name : Name} {superclass : Option Reference}
    {methods : List FunctionDecl} {b : Bindings}
    (h : ((Stmt.class name superclass methods).bindNames around b).errors = []) :
    ∃ inner, (b.classHead inner name superclass).errors = [] := by
  rw [Stmt.bindNames] at h
  refine ⟨{ around with inClass := if superclass.isSome then .derived else .plain }, ?_⟩
  generalize (if superclass.isSome then ClassContext.derived else .plain) = kind at h ⊢
  have hmethods := ((Bindings.extends_enter around
    (b.classHead { around with inClass := kind } name superclass)).trans
    (Bindings.extends_put around _ "this" .defined)).refl_trans
    ((extends_bindMethods { around with inClass := kind } methods _).outward id)
  have hleave := hmethods.trans_refl (Bindings.extends_leave around _)
  split at h
  · exact (hleave.trans_refl (Bindings.extends_leave around _)).errors_eq_nil h
  · exact hleave.errors_eq_nil h

theorem methods_of_bindNames {around : Surroundings} {name : Name} {superclass : Option Reference}
    {methods : List FunctionDecl} {b : Bindings}
    (h : ((Stmt.class name superclass methods).bindNames around b).errors = []) :
    ∃ inner start, (bindMethods inner methods start).errors = [] := by
  rw [Stmt.bindNames] at h
  split at h <;> exact ⟨_, _, h⟩

/-- A name that a statement declares is new in its scope. -/
theorem Stmt.not_mem_of_bindNames {around : Surroundings} {s : Stmt} {b : Bindings} {scope : Scope}
    {outer : List Scope} (hb : b.scopes = scope :: outer) (h : (s.bindNames around b).errors = [])
    {text : String} (htext : s.declaredName = some text) : text ∉ scope := by
  cases s with
  | var name initializer =>
    cases htext
    have hrest := (extends_bindOptional around initializer (b.declare name)).trans_refl
      (Bindings.extends_define around _ name)
    exact not_mem_of_declare hb (hrest.errors_eq_nil h)
  | function declaration =>
    cases htext
    have hrest := (Bindings.extends_define around (b.declare declaration.name)
      declaration.name).refl_trans ((declaration.extends_bindNames
        { around with inFunction := .function } _).outward fun h => by cases h)
    exact not_mem_of_declare hb (hrest.errors_eq_nil h)
  | «class» name superclass methods =>
    cases htext
    obtain ⟨inner, hhead⟩ := classHead_of_bindNames h
    exact not_mem_of_declare hb (declare_of_classHead hhead)
  | _ => cases htext

theorem distinctNames_of_bindStatements {around : Surroundings} : ∀ (body : List Stmt) {b : Bindings}
    {scope : Scope} {outer : List Scope}, WellFormedStatements body → b.scopes = scope :: outer →
    (bindStatements around body b).errors = [] →
    DistinctNames body ∧ ∀ s ∈ body, ∀ text, s.declaredName = some text → text ∉ scope
  | [], _, _, _, _, _, _ => ⟨.nil, fun _ hs => by cases hs⟩
  | s :: rest, b, scope, outer, hbody, hb, h => by
    rw [WellFormedStatements] at hbody
    have hfirst := (extends_bindStatements around rest (s.bindNames around b)).errors_eq_nil h
    have hscopes := s.scopes_bindNames around hbody.1 b
    rw [hb, Stmt.scopesAfter] at hscopes
    rcases hname : s.declaredName with _ | text <;> rw [hname] at hscopes
    · obtain ⟨hdistinct, hnew⟩ := distinctNames_of_bindStatements rest hbody.2 hscopes h
      refine ⟨.cons (fun _ _ text htext => ?_) hdistinct, fun t ht text htext => ?_⟩
      · rw [hname] at htext
        cases htext
      · rcases List.mem_cons.mp ht with rfl | hrest
        · rw [hname] at htext
          cases htext
        · exact hnew t hrest text htext
    · obtain ⟨hdistinct, hnew⟩ := distinctNames_of_bindStatements rest hbody.2 hscopes h
      refine ⟨.cons (fun t ht other hother hsame => ?_) hdistinct, fun t ht other hother => ?_⟩
      · rw [hname] at hother
        cases hother
        exact hnew t ht text hsame Std.ExtTreeMap.mem_insert_self
      · rcases List.mem_cons.mp ht with rfl | hrest
        · exact Stmt.not_mem_of_bindNames hb hfirst hother
        · exact fun hmem => hnew t hrest other hother (Std.ExtTreeMap.mem_insert.mpr (Or.inr hmem))

/-! ### Functions and classes -/

/-- The name of a function or class. -/
def Stmt.shownName : Stmt → Option String
  | .function declaration => some declaration.name.text
  | .class name _ _ => some name.text
  | _ => none

theorem Stmt.shownName_ne {s : Stmt} (h : s.isDeclaration = false) (text : String) :
    s.shownName ≠ some text := by
  cases s <;> first | (intro hshown; cases hshown; done) | cases h

theorem Stmt.declaredName_of_shownName {s : Stmt} {text : String} (h : s.shownName = some text) :
    s.declaredName = some text := by
  cases s <;> first | exact h | cases h

mutual

/-- In the scope that is meant, no function and no class has the name that is spelled anew.  The
statement stands in that scope if `here` says so. -/
def Stmt.Separate (r : Respelling) (here : Bool) (first : Nat) : Stmt → Prop
  | .block body => SeparateStatements r (first == r.scope) (first + 1) body
  | .ifElse _ thenBranch none => thenBranch.Separate r here first
  | .ifElse _ thenBranch (some elseBranch) =>
    thenBranch.Separate r here first
      ∧ elseBranch.Separate r here (first + thenBranch.scopeCount)
  | .whileLoop _ body => body.Separate r here first
  | .function declaration =>
    (here = true → declaration.name.text ≠ r.old) ∧ declaration.Separate r first
  | .class name _ methods => (here = true → name.text ≠ r.old) ∧ SeparateMethods r first methods
  | _ => True

def FunctionDecl.Separate (r : Respelling) (first : Nat) : FunctionDecl → Prop
  | ⟨_, _, body⟩ => SeparateStatements r (first == r.scope) (first + 1) body

def SeparateStatements (r : Respelling) (here : Bool) (first : Nat) : List Stmt → Prop
  | [] => True
  | s :: rest =>
    s.Separate r here first ∧ SeparateStatements r here (first + s.scopeCount) rest

def SeparateMethods (r : Respelling) (first : Nat) : List FunctionDecl → Prop
  | [] => True
  | method :: rest => method.Separate r first ∧ SeparateMethods r (first + method.scopeCount) rest

end

/-! ### Numbers of scopes -/

/-- The variable belongs to the scope around, or to a scope with a number in the range. -/
def Ranged (around : Option Nat) (first count : Nat) (entries : List (Nat × String)) : Prop :=
  ∀ entry ∈ entries, around = some entry.1 ∨ (first ≤ entry.1 ∧ entry.1 < first + count)

theorem Ranged.widen {around : Option Nat} {first count first' count' : Nat}
    {entries : List (Nat × String)} (h : Ranged around first count entries)
    (hfirst : first' ≤ first) (hlast : first + count ≤ first' + count') :
    Ranged around first' count' entries := by
  intro entry hentry
  rcases h entry hentry with haround | hrange
  · exact Or.inl haround
  · exact Or.inr (by omega)

theorem Ranged.append {around : Option Nat} {first count more : Nat}
    {entries others : List (Nat × String)} (h : Ranged around first count entries)
    (hothers : Ranged around (first + count) more others) :
    Ranged around first (count + more) (entries ++ others) := by
  intro entry hentry
  rcases List.mem_append.mp hentry with hentry | hentry
  · exact h.widen (Nat.le_refl _) (by omega) entry hentry
  · exact hothers.widen (by omega) (by omega) entry hentry

/-- What belongs to the scope around is in the range, once the scope counts as well. -/
theorem Ranged.enclose {around : Option Nat} {first count : Nat} {entries : List (Nat × String)}
    (h : Ranged (some first) (first + 1) count entries) :
    Ranged around first (count + 1) entries := by
  intro entry hentry
  rcases h entry hentry with haround | hrange
  · cases haround
    exact Or.inr (by omega)
  · exact Or.inr (by omega)

mutual

theorem Stmt.ranged (around : Option Nat) : ∀ (s : Stmt) (first : Nat),
    Ranged around first s.scopeCount (s.localVariables around first)
  | .var name _, first => by
    intro entry hentry
    rw [Stmt.localVariables] at hentry
    obtain ⟨scope, hscope, rfl⟩ := List.mem_map.mp hentry
    exact Or.inl (Option.mem_toList.mp hscope)
  | .block body, first => (statements_ranged (some first) body (first + 1)).enclose
  | .ifElse _ thenBranch none, first => thenBranch.ranged around first
  | .ifElse _ thenBranch (some elseBranch), first =>
    (thenBranch.ranged around first).append (elseBranch.ranged around _)
  | .whileLoop _ body, first => body.ranged around first
  | .function declaration, first => declaration.ranged around first
  | .class _ _ methods, first => methods_ranged around methods first
  | .expression _, _ => fun _ h => by cases h
  | .print _, _ => fun _ h => by cases h
  | .return _ _, _ => fun _ h => by cases h

theorem FunctionDecl.ranged (around : Option Nat) : ∀ (f : FunctionDecl) (first : Nat),
    Ranged around first f.scopeCount (f.localVariables first)
  | ⟨_, params, body⟩, first => by
    have hparams : Ranged (some first) (first + 1) 0 (params.map fun param => (first, param.text)) := by
      intro entry hentry
      obtain ⟨param, -, rfl⟩ := List.mem_map.mp hentry
      exact Or.inl rfl
    have hall := hparams.append (statements_ranged (some first) body (first + 1))
    rw [Nat.zero_add] at hall
    exact hall.enclose

theorem statements_ranged (around : Option Nat) : ∀ (body : List Stmt) (first : Nat),
    Ranged around first (statementScopeCount body) (statementVariables around first body)
  | [], _ => fun _ h => by cases h
  | s :: rest, first => (s.ranged around first).append (statements_ranged around rest _)

theorem methods_ranged (around : Option Nat) : ∀ (methods : List FunctionDecl) (first : Nat),
    Ranged around first (methodScopeCount methods) (methodVariables first methods)
  | [], _ => fun _ h => by cases h
  | method :: rest, first => (method.ranged around first).append (methods_ranged around rest _)

end

/-! ### Scopes that declare a variable -/

/-- A variable of the scope around is declared by a statement of the scope itself. -/
theorem Stmt.var_of_localVariables {scope : Nat} {text : String} : ∀ (s : Stmt) {first : Nat},
    s.WellFormed → scope < first → (scope, text) ∈ s.localVariables (some scope) first →
    ∃ name initializer, s = .var name initializer ∧ name.text = text
  | .var name initializer, _, _, _, h => by
    rw [Stmt.localVariables] at h
    obtain ⟨_, -, heq⟩ := List.mem_map.mp h
    cases heq
    exact ⟨name, initializer, rfl, rfl⟩
  | .block body, first, _, hlt, h => by
    have hrange : Ranged none first (statementScopeCount body + 1) _ :=
      (statements_ranged (some first) body (first + 1)).enclose
    rcases hrange _ h with hnone | hge
    · cases hnone
    · exact absurd hge.1 (Nat.not_le.mpr hlt)
  | .ifElse _ thenBranch none, _, hs, hlt, h => by
    rw [Stmt.WellFormed] at hs
    obtain ⟨name, initializer, rfl, -⟩ := thenBranch.var_of_localVariables hs.2.1 hlt h
    cases hs.2.2
  | .ifElse _ thenBranch (some elseBranch), first, hs, hlt, h => by
    rw [Stmt.WellFormed] at hs
    rcases List.mem_append.mp h with h | h
    · obtain ⟨name, initializer, rfl, -⟩ := thenBranch.var_of_localVariables hs.2.1.1 hlt h
      cases hs.2.1.2
    · have hlt' : scope < first + thenBranch.scopeCount := by omega
      obtain ⟨name, initializer, rfl, -⟩ := elseBranch.var_of_localVariables hs.2.2.1 hlt' h
      cases hs.2.2.2
  | .whileLoop _ body, _, hs, hlt, h => by
    rw [Stmt.WellFormed] at hs
    obtain ⟨name, initializer, rfl, -⟩ := body.var_of_localVariables hs.2.1 hlt h
    cases hs.2.2
  | .function declaration, first, _, hlt, h => by
    rcases declaration.ranged none first _ h with hnone | hge
    · cases hnone
    · exact absurd hge.1 (Nat.not_le.mpr hlt)
  | .class _ _ methods, first, _, hlt, h => by
    rcases methods_ranged none methods first _ h with hnone | hge
    · cases hnone
    · exact absurd hge.1 (Nat.not_le.mpr hlt)

theorem var_of_statementVariables {scope : Nat} {text : String} : ∀ (body : List Stmt) {first : Nat},
    WellFormedStatements body → scope < first →
    (scope, text) ∈ statementVariables (some scope) first body →
    ∃ s ∈ body, ∃ name initializer, s = .var name initializer ∧ name.text = text
  | [], _, _, _, h => by cases h
  | s :: rest, first, hbody, hlt, h => by
    rw [WellFormedStatements] at hbody
    rcases List.mem_append.mp h with h | h
    · exact ⟨s, List.mem_cons_self, s.var_of_localVariables hbody.1 hlt h⟩
    · have hlt' : scope < first + s.scopeCount := by omega
      obtain ⟨t, ht, hvar⟩ := var_of_statementVariables rest hbody.2 hlt' h
      exact ⟨t, List.mem_cons_of_mem _ ht, hvar⟩

/-- No function and no class has the name of a variable of its scope. -/
theorem shownName_ne_of_var {body : List Stmt} (hdistinct : DistinctNames body) {name : Name}
    {initializer : Option Expr} (hvar : Stmt.var name initializer ∈ body) {t : Stmt} (ht : t ∈ body) :
    t.shownName ≠ some name.text := by
  intro hshown
  have hne : Stmt.var name initializer ≠ t := by
    rintro rfl
    cases hshown
  have : Std.Symm fun s t : Stmt =>
      ∀ text, s.declaredName = some text → t.declaredName ≠ some text :=
    ⟨fun _ _ h text hs ht => h text ht hs⟩
  exact hdistinct.forall hvar ht hne name.text rfl (Stmt.declaredName_of_shownName hshown)

/-- So it is in the scope of a function, whose parameters are variables as well. -/
theorem shownName_ne_of_mem {around : Surroundings} {body : List Stmt} {b : Bindings} {scope : Scope}
    {outer : List Scope} (hbody : WellFormedStatements body) (hb : b.scopes = scope :: outer)
    (herr : (bindStatements around body b).errors = []) (number : Nat) {text : String}
    (h : text ∈ scope ∨ (number, text) ∈ statementVariables (some number) (number + 1) body) :
    ∀ t ∈ body, t.shownName ≠ some text := by
  obtain ⟨hdistinct, hnew⟩ := distinctNames_of_bindStatements body hbody hb herr
  intro t ht
  rcases h with hmem | hvar
  · exact fun hshown => hnew t ht text (Stmt.declaredName_of_shownName hshown) hmem
  · obtain ⟨s, hs, name, initializer, rfl, rfl⟩ :=
      var_of_statementVariables body hbody (Nat.lt_succ_self number) hvar
    exact shownName_ne_of_var hdistinct hs ht

theorem mem_paramScope {params : List Name} {param : Name} (h : param ∈ params) :
    param.text ∈ paramScope params := by
  rw [← Std.ExtTreeMap.isSome_getElem?_iff_mem, getElem?_paramScope, if_pos ⟨param, h, rfl⟩]
  rfl

/-- If the number of the scope is in a range, its variable is among those given. -/
def Covers (r : Respelling) (first count : Nat) (entries : List (Nat × String)) : Prop :=
  first ≤ r.scope → r.scope < first + count → (r.scope, r.old) ∈ entries

section Covering

variable {r : Respelling} {first count more : Nat} {around : Option Nat}
variable {entries others : List (Nat × String)}

theorem Covers.left (h : Covers r first (count + more) (entries ++ others))
    (hothers : Ranged around (first + count) more others) (haround : ∀ k, around = some k → k < first) :
    Covers r first count entries := by
  intro hge hlt
  rcases List.mem_append.mp (h hge (by omega)) with hmem | hmem
  · exact hmem
  · rcases hothers _ hmem with hscope | hrange
    · exact absurd (haround _ hscope) (Nat.not_lt.mpr hge)
    · exact absurd hrange.1 (Nat.not_le.mpr hlt)

theorem Covers.right (h : Covers r first (count + more) (entries ++ others))
    (hentries : Ranged around first count entries)
    (haround : ∀ k, around = some k → k < first) : Covers r (first + count) more others := by
  intro hge hlt
  rcases List.mem_append.mp (h (by omega) (by omega)) with hmem | hmem
  · rcases hentries _ hmem with hscope | hrange
    · exact absurd (haround _ hscope) (by omega)
    · exact absurd hrange.2 (Nat.not_lt.mpr hge)
  · exact hmem

theorem Covers.inside (h : Covers r first (count + 1) entries) : Covers r (first + 1) count entries :=
  fun hge hlt => h (by omega) (by omega)

theorem Covers.here (h : Covers r first (count + 1) entries) (hfirst : (first == r.scope) = true) :
    (first, r.old) ∈ entries := by
  have heq := beq_iff_eq.mp hfirst
  rw [heq]
  exact h (by omega) (by omega)

end Covering

section Separation

variable {r : Respelling}

theorem lt_of_some {first : Nat} : ∀ k, some first = some k → k < first + 1 := by
  intro k hk
  cases hk
  exact Nat.lt_succ_self _

mutual

/-- In a source without errors, functions and classes of the scope have other names. -/
theorem Stmt.separate {here : Bool} {scope : Option Nat} : ∀ (s : Stmt) {around : Surroundings}
    {b : Bindings} {first : Nat}, s.WellFormed → (s.bindNames around b).errors = [] →
    (∀ k, scope = some k → k < first) →
    Covers r first s.scopeCount (s.localVariables scope first) →
    (here = true → s.shownName ≠ some r.old) → s.Separate r here first
  | .block body, around, b, first, hs, herr, hscope, hcovers, _ => by
    rw [Stmt.WellFormed] at hs
    rw [Stmt.localVariables, Stmt.scopeCount] at hcovers
    rw [Stmt.Separate]
    refine separateStatements body hs herr lt_of_some hcovers.inside fun hhere => ?_
    exact shownName_ne_of_mem hs b.scopes_enter herr first (Or.inr (hcovers.here hhere))
  | .ifElse condition thenBranch none, around, b, first, hs, herr, hscope, hcovers, _ => by
    rw [Stmt.WellFormed] at hs
    rw [Stmt.Separate]
    exact thenBranch.separate hs.2.1 herr hscope hcovers fun _ => Stmt.shownName_ne hs.2.2 _
  | .ifElse condition thenBranch (some elseBranch), around, b, first, hs, herr, hscope, hcovers, _ => by
    rw [Stmt.WellFormed] at hs
    rw [Stmt.Separate]
    have hfirst := (elseBranch.extends_bindNames around
      (thenBranch.bindNames around (condition.bindNames around b))).errors_eq_nil herr
    refine ⟨thenBranch.separate hs.2.1.1 hfirst hscope
      (hcovers.left (elseBranch.ranged scope _) hscope) fun _ => Stmt.shownName_ne hs.2.1.2 _, ?_⟩
    refine elseBranch.separate hs.2.2.1 herr (fun k hk => ?_)
      (hcovers.right (thenBranch.ranged scope first) hscope) fun _ => Stmt.shownName_ne hs.2.2.2 _
    have hlt := hscope k hk
    omega
  | .whileLoop condition body, around, b, first, hs, herr, hscope, hcovers, _ => by
    rw [Stmt.WellFormed] at hs
    rw [Stmt.Separate]
    exact body.separate hs.2.1 herr hscope hcovers fun _ => Stmt.shownName_ne hs.2.2 _
  | .function declaration, around, b, first, hs, herr, _, hcovers, hname => by
    rw [Stmt.WellFormed] at hs
    rw [Stmt.Separate]
    exact ⟨fun hhere heq => hname hhere (congrArg some heq), declaration.separate hs herr hcovers⟩
  | .class name superclass methods, around, b, first, hs, herr, _, hcovers, hname => by
    rw [Stmt.WellFormed] at hs
    rw [Stmt.Separate]
    obtain ⟨inner, start, hmethods⟩ := methods_of_bindNames herr
    exact ⟨fun hhere heq => hname hhere (congrArg some heq),
      separateMethods methods hs.2.2 hmethods hcovers⟩
  | .expression _, _, _, _, _, _, _, _, _ => trivial
  | .print _, _, _, _, _, _, _, _, _ => trivial
  | .var _ _, _, _, _, _, _, _, _, _ => trivial
  | .return _ _, _, _, _, _, _, _, _, _ => trivial

theorem FunctionDecl.separate : ∀ (f : FunctionDecl) {around : Surroundings} {b : Bindings}
    {first : Nat}, f.WellFormed → (f.bindNames around b).errors = [] →
    Covers r first f.scopeCount (f.localVariables first) → f.Separate r first
  | ⟨name, params, body⟩, around, b, first, hf, herr, hcovers => by
    rw [FunctionDecl.WellFormed] at hf
    rw [FunctionDecl.localVariables, FunctionDecl.scopeCount] at hcovers
    rw [FunctionDecl.Separate]
    have hparams : Ranged (some first) (first + 1) 0 (params.map fun param => (first, param.text)) := by
      intro entry hentry
      obtain ⟨param, -, rfl⟩ := List.mem_map.mp hentry
      exact Or.inl rfl
    have hbody := hcovers.inside
    rw [← Nat.zero_add (statementScopeCount body)] at hbody
    refine separateStatements body hf.2.2 herr lt_of_some (hbody.right hparams lt_of_some)
      fun hhere => ?_
    refine shownName_ne_of_mem hf.2.2 (b.scopes_parameters params) herr first ?_
    rcases List.mem_append.mp (hcovers.here hhere) with hmem | hmem
    · obtain ⟨param, hparam, heq⟩ := List.mem_map.mp hmem
      have htext : param.text = r.old := congrArg Prod.snd heq
      rw [← htext]
      exact Or.inl (mem_paramScope hparam)
    · exact Or.inr hmem

theorem separateStatements {here : Bool} {scope : Option Nat} : ∀ (body : List Stmt)
    {around : Surroundings} {b : Bindings} {first : Nat}, WellFormedStatements body →
    (bindStatements around body b).errors = [] → (∀ k, scope = some k → k < first) →
    Covers r first (statementScopeCount body) (statementVariables scope first body) →
    (here = true → ∀ s ∈ body, s.shownName ≠ some r.old) → SeparateStatements r here first body
  | [], _, _, _, _, _, _, _, _ => trivial
  | s :: rest, around, b, first, hbody, herr, hscope, hcovers, hnames => by
    rw [WellFormedStatements] at hbody
    rw [SeparateStatements]
    have hfirst := (extends_bindStatements around rest (s.bindNames around b)).errors_eq_nil herr
    refine ⟨s.separate hbody.1 hfirst hscope (hcovers.left (statements_ranged _ rest _) hscope)
      fun hhere => hnames hhere s List.mem_cons_self, ?_⟩
    refine separateStatements rest hbody.2 herr (fun k hk => ?_)
      (hcovers.right (s.ranged scope first) hscope)
      fun hhere t ht => hnames hhere t (List.mem_cons_of_mem _ ht)
    have hlt := hscope k hk
    omega

theorem separateMethods : ∀ (methods : List FunctionDecl) {around : Surroundings} {b : Bindings}
    {first : Nat}, WellFormedMethods methods → (bindMethods around methods b).errors = [] →
    Covers r first (methodScopeCount methods) (methodVariables first methods) →
    SeparateMethods r first methods
  | [], _, _, _, _, _, _ => trivial
  | method :: rest, around, b, first, hmethods, herr, hcovers => by
    rw [WellFormedMethods] at hmethods
    rw [bindMethods] at herr
    rw [SeparateMethods]
    have hfirst := (extends_bindMethods around rest
      (method.bindNames { around with inFunction := method.methodContext } b)).errors_eq_nil herr
    have hnone : ∀ k, (none : Option Nat) = some k → k < first := fun _ hk => by cases hk
    exact ⟨method.separate hmethods.1 hfirst (hcovers.left (methods_ranged none rest _) hnone),
      separateMethods rest hmethods.2 herr (hcovers.right (method.ranged none first) hnone)⟩

end

end Separation

/-- A variable of a program can be told from the functions and classes of its scope. -/
theorem Program.separate {program : Program} (hprogram : WellFormedStatements program)
    (herr : (Program.bindings program).errors = []) {r : Respelling}
    (hvariable : (r.scope, r.old) ∈ program.localVariables) :
    SeparateStatements r false 0 program := by
  have hnone : ∀ k, (none : Option Nat) = some k → k < 0 := fun _ hk => by cases hk
  exact separateStatements program hprogram herr hnone (fun _ _ => hvariable) fun h => by cases h

end Treewalk
