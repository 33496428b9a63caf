import Treewalk.Proofs.Binding.Occurrences
import Treewalk.Proofs.Syntax.Numbering
import Treewalk.Proofs.Token.Words

/-!
# The walk against the places

**The walk finds at each occurrence what the path to it says, and finds nothing else.**  The walk
keeps scopes, and what surrounds it, and changes both as it goes; a path is all of that at once.
So it is enough that the walk stands with the scopes of the path wherever it comes to an
occurrence.
-/

namespace Treewalk

/-! ### Findings at one occurrence -/

/-- The hop count of a name at a place. -/
def Path.hops? (around : Path) (text : String) : Option Nat :=
  around.scopes.findIdx? fun names => names.contains text

/-- The table with the hop count of an occurrence, if it has one. -/
def Occurrence.record (o : Occurrence) (table : HopTable) : HopTable :=
  match o.what.reference? with
  | some (id, text) =>
    match o.around.hops? text with
    | some hops => table.insert id hops
    | none => table
  | none => table

/-- The number of a reference that has a hop count and lies outside every function. -/
def Occurrence.outside? (o : Occurrence) : Option Nat :=
  match o.what.reference? with
  | some (id, text) =>
    if o.around.function? = none ∧ (o.around.hops? text).isSome then some id else none
  | none => none

/-! ### Initializers -/

/-- No variable on the path is still being initialized. -/
def Path.Ready (around : Path) : Prop :=
  ∀ name, .initializer name ∉ around

/-- At most the variable at hand is still being initialized. -/
def Path.Tidy (around : Path) : Prop :=
  Path.Ready around.tail

theorem Path.Ready.tidy {around : Path} (h : around.Ready) : around.Tidy :=
  fun name hname => h name (List.mem_of_mem_tail hname)

theorem Path.Ready.initializes {around : Path} (h : around.Ready) (name : String) :
    Path.Tidy (.initializer name :: around) :=
  h

theorem Path.Ready.cons {around : Path} (h : around.Ready) (entry : Entry)
    (hentry : ∀ name, entry ≠ .initializer name) : Path.Ready (entry :: around) := by
  intro name hname
  rcases List.mem_cons.mp hname with heq | houter
  · exact hentry name heq.symm
  · exact h name houter

theorem Path.Ready.behindParams {around : Path} (h : around.Ready) (params : List Name) :
    (around.behindParams params).Ready := by
  induction params generalizing around with
  | nil => exact h
  | cons param params ih => exact ih (h.cons (.declared param.text) fun _ => nofun)

theorem Path.Ready.behind {around : Path} (h : around.Ready) (s : Stmt) :
    (around.behind s).Ready := by
  unfold Path.behind
  split
  · exact h.cons (.declared _) fun _ => nofun
  · exact h

theorem Path.Ready.allDefined {around : Path} (h : around.Ready) : AllDefined around.tables := by
  induction around with
  | nil => exact fun _ hscope => absurd hscope List.not_mem_nil
  | cons entry around ih =>
    have houter : AllDefined (Path.tables around) :=
      ih fun name hname => h name (List.mem_cons_of_mem _ hname)
    rcases entry with _ | _ | derived | text | text
    · exact houter.cons fun _ _ hfound => by simp at hfound
    · exact houter.cons fun _ _ hfound => by simp at hfound
    · exact allDefined_methodScopes derived houter
    · exact houter.putName text
    · exact absurd List.mem_cons_self (h text)

/-- No name of the innermost scope is still being read. -/
theorem AllDefined.innermost_ready {scopes : List Scope} (h : AllDefined scopes) (text : String) :
    (scopes.head?.any fun scope => scope[text]? == some .declared) = false := by
  rcases scopes with _ | ⟨scope, outer⟩
  · rfl
  · refine beq_eq_false_iff_ne.mpr fun hdeclared => ?_
    cases h scope List.mem_cons_self text .declared hdeclared

/-- A name put there is the only one that is. -/
theorem unready_putName {scopes : List Scope} (h : AllDefined scopes)
    (name text : String) :
    ((putName name .declared scopes).head?.any fun scope => scope[text]? == some .declared)
      = (name == text && !scopes.isEmpty) := by
  rcases scopes with _ | ⟨scope, outer⟩
  · simp [putName]
  · rw [putName_cons, List.head?_cons, Option.any_some, Std.ExtTreeMap.getElem?_insert]
    by_cases htext : name = text
    · simp [htext]
    · have hready := h.innermost_ready text
      simpa [htext] using hready

/-- On a tidy path a name is unready only in its own initializer. -/
theorem Path.Tidy.unready_eq {around : Path} (h : around.Tidy) (text : String) :
    (around.tables.head?.any fun scope => scope[text]? == some .declared)
      = around.initializes text := by
  by_cases hhead : ∃ name outer, around = .initializer name :: outer
  · obtain ⟨name, outer, rfl⟩ := hhead
    have houter : AllDefined (Path.tables outer) := Path.Ready.allDefined h
    rw [Path.tables, unready_putName houter, (Path.hold_tables outer).isEmpty_eq, Path.initializes]
  · have hready : around.Ready := by
      rcases around with _ | ⟨entry, outer⟩
      · exact fun _ => List.not_mem_nil
      · exact Path.Ready.cons h entry fun name heq => hhead ⟨name, outer, by rw [heq]⟩
    rw [hready.allDefined.innermost_ready, Path.initializes]
    exact fun name outer heq => hhead ⟨name, outer, heq⟩

theorem Path.inFunction_eq_none_iff (around : Path) :
    around.surroundings.inFunction = .none ↔ around.function? = none := by
  rw [Path.surroundings]
  rcases around.function? with _ | _ | method
  · simp
  · simp
  · by_cases hinit : method = initializerName <;> simp [hinit]

namespace Bindings

/-- What is found at these occurrences, in this order, is added. -/
structure Meets (met : List Occurrence) (b later : Bindings) : Prop where
  errors : later.errors = b.errors ++ met.filterMap Occurrence.error?
  hops : later.hops = met.foldl (fun table o => o.record table) b.hops
  topLevel : later.topLevel = b.topLevel ++ met.filterMap Occurrence.outside?

namespace Meets

variable {met more : List Occurrence} {b middle later : Bindings}

theorem of_same (herrors : later.errors = b.errors) (hhops : later.hops = b.hops)
    (htopLevel : later.topLevel = b.topLevel) : Meets [] b later :=
  ⟨by simpa using herrors, hhops, by simpa using htopLevel⟩

theorem trans (h : Meets met b middle) (hlater : Meets more middle later) :
    Meets (met ++ more) b later where
  errors := by rw [hlater.errors, h.errors, List.filterMap_append, List.append_assoc]
  hops := by rw [hlater.hops, h.hops, List.foldl_append]
  topLevel := by rw [hlater.topLevel, h.topLevel, List.filterMap_append, List.append_assoc]

/-- Nothing is met in the second part of a walk. -/
theorem trans_same (h : Meets met b middle) (hlater : Meets [] middle later) :
    Meets met b later := by
  simpa using h.trans hlater

theorem same_trans (h : Meets [] b middle) (hlater : Meets met middle later) :
    Meets met b later :=
  h.trans hlater

/-- One occurrence is met. -/
theorem single {o : Occurrence} (herrors : later.errors = b.errors ++ o.error?.toList)
    (hhops : later.hops = o.record b.hops)
    (htopLevel : later.topLevel = b.topLevel ++ o.outside?.toList) : Meets [o] b later where
  errors := by rw [herrors]; rcases h : o.error? <;> simp [h]
  hops := hhops
  topLevel := by rw [htopLevel]; rcases h : o.outside? <;> simp [h]

end Meets

/-- The walk stands at the place that the path leads to. -/
def StandsAt (b : Bindings) (around : Path) : Prop :=
  b.scopes = around.tables

section Actions

variable {b : Bindings} {around : Path}

theorem meets_enter (b : Bindings) : Meets [] b b.enter :=
  .of_same rfl rfl rfl

theorem meets_leave (b : Bindings) : Meets [] b b.leave :=
  .of_same rfl rfl rfl

theorem meets_put (b : Bindings) (text : String) (standing : Standing) :
    Meets [] b (b.put text standing) := by
  unfold put
  split
  · exact .of_same rfl rfl rfl
  · exact .of_same rfl rfl rfl

theorem meets_define (b : Bindings) (name : Name) : Meets [] b (b.define name) :=
  b.meets_put name.text .defined

theorem errors_noteIf (b : Bindings) (condition : Bool) (site : Name) (fault : BindingFault) :
    (b.noteIf condition site fault).errors
      = b.errors ++ if condition then [⟨site, fault⟩] else [] := by
  unfold noteIf
  split
  · rfl
  · exact (List.append_nil _).symm

theorem hops_noteIf (b : Bindings) (condition : Bool) (site : Name) (fault : BindingFault) :
    (b.noteIf condition site fault).hops = b.hops := by
  unfold noteIf
  split <;> rfl

theorem topLevel_noteIf (b : Bindings) (condition : Bool) (site : Name) (fault : BindingFault) :
    (b.noteIf condition site fault).topLevel = b.topLevel := by
  unfold noteIf
  split <;> rfl

/-- An error is noted exactly when the occurrence breaks a rule. -/
theorem meets_noteIf {o : Occurrence} {condition : Bool} {site : Name} {fault : BindingFault}
    (herror : o.error? = if condition then some ⟨site, fault⟩ else none)
    (hreference : o.what.reference? = none) : Meets [o] b (b.noteIf condition site fault) := by
  refine .single ?_ ?_ ?_
  · rw [errors_noteIf, herror]
    split <;> rfl
  · rw [hops_noteIf, Occurrence.record, hreference]
  · rw [topLevel_noteIf, Occurrence.outside?, hreference]
    exact (List.append_nil _).symm

/-- A reference, the rules for which the walk has checked. -/
theorem meets_refer {checked : Bindings} (hb : b.StandsAt around) {surroundings : Surroundings}
    (hfunction : surroundings.inFunction = around.surroundings.inFunction)
    {what : Item} {id : Nat} {text : String} (hreference : what.reference? = some (id, text))
    (hscopes : checked.scopes = b.scopes) (hhops : checked.hops = b.hops)
    (htopLevel : checked.topLevel = b.topLevel)
    (herrors : checked.errors = b.errors ++ (Occurrence.error? ⟨what, around⟩).toList) :
    Meets [⟨what, around⟩] b (checked.refer surroundings id text) := by
  have hfound : (checked.scopes.findIdx? fun scope => scope.contains text) = around.hops? text :=
    hscopes.trans hb ▸ around.hold_tables.hopsIn_eq text
  unfold refer
  rw [hfound]
  rcases hcount : around.hops? text with _ | hops
  · refine .single herrors ?_ ?_
    · simp only [Occurrence.record, hreference, hcount, hhops]
    · simp [Occurrence.outside?, hreference, hcount, htopLevel]
  · refine .single herrors ?_ ?_
    · simp only [Occurrence.record, hreference, hcount, hhops]
    · simp only [hfunction, around.inFunction_eq_none_iff, Occurrence.outside?, hreference, hcount,
        Option.isSome_some, and_true, htopLevel]
      split <;> simp

theorem meets_declare (hb : b.StandsAt around) (name : Name) :
    Meets [⟨.declaration name, around⟩] b (b.declare name) := by
  refine (b.meets_put name.text .declared).same_trans (meets_noteIf ?_ rfl)
  have htaken : b.isTaken name.text = true ↔ name.text ∈ around.taken := by
    rw [isTaken, hb]
    exact around.hold_tables.innermost_iff name.text
  simp only [Occurrence.error?, htaken]

theorem meets_read (hb : b.StandsAt around) (htidy : around.Tidy) {surroundings : Surroundings}
    (hfunction : surroundings.inFunction = around.surroundings.inFunction)
    (name : Name) (id : Nat) :
    Meets [⟨.variable name id, around⟩] b (b.read surroundings name id) := by
  refine meets_refer hb hfunction rfl (b.scopes_noteIf ..) (b.hops_noteIf ..)
    (b.topLevel_noteIf ..) ?_
  have hunready : b.isUnready name.text = around.initializes name.text := by
    rw [isUnready, hb]
    exact htidy.unready_eq name.text
  rw [errors_noteIf, hunready, Occurrence.error?]
  split <;> rfl

theorem meets_this (hb : b.StandsAt around) (line id : Nat) :
    Meets [⟨.this line id, around⟩] b
      ((b.noteIf (around.surroundings.inClass = .none) ⟨"this", line⟩ .thisOutsideClass).refer
        around.surroundings id "this") := by
  refine meets_refer hb rfl rfl (b.scopes_noteIf ..) (b.hops_noteIf ..) (b.topLevel_noteIf ..) ?_
  rw [errors_noteIf, Occurrence.error?, Path.surroundings]
  rcases around.class? with _ | _ | _ <;> rfl

theorem meets_super (hb : b.StandsAt around) (line id : Nat) :
    Meets [⟨.super line id, around⟩] b
      ((b.checkSuper around.surroundings ⟨"super", line⟩).refer around.surroundings id
        "super") := by
  have hchecked : (b.checkSuper around.surroundings ⟨"super", line⟩).hops = b.hops
      ∧ (b.checkSuper around.surroundings ⟨"super", line⟩).topLevel = b.topLevel
      ∧ (b.checkSuper around.surroundings ⟨"super", line⟩).errors
        = b.errors ++ (Occurrence.error? ⟨.super line id, around⟩).toList := by
    rw [checkSuper, Occurrence.error?, Path.surroundings]
    rcases around.class? with _ | _ | _
    · exact ⟨rfl, rfl, rfl⟩
    · exact ⟨rfl, rfl, rfl⟩
    · exact ⟨rfl, rfl, (List.append_nil _).symm⟩
  exact meets_refer hb rfl rfl (b.scopes_checkSuper ..) hchecked.1 hchecked.2.1 hchecked.2.2

/-- At most one of the two rules for `return` is broken. -/
theorem meets_checkReturn (b : Bindings) (around : Path) (line : Nat) (hasValue : Bool) :
    Meets [⟨.return line hasValue, around⟩] b
      (b.checkReturn around.surroundings line hasValue) := by
  refine .single ?_ ?_ ?_
  · rw [checkReturn, errors_noteIf, errors_noteIf, Occurrence.error?, Path.surroundings]
    rcases around.function? with _ | _ | method
    · simp
    · simp
    · by_cases hinit : method = initializerName <;> cases hasValue <;> simp [hinit]
  · rw [checkReturn, hops_noteIf, hops_noteIf]
    rfl
  · rw [checkReturn, topLevel_noteIf, topLevel_noteIf]
    exact (List.append_nil _).symm

end Actions

end Bindings

open Bindings

/-! ### The walk -/

mutual

theorem Expr.meets_bindNames {around : Path} (htidy : around.Tidy) : ∀ (e : Expr) {b : Bindings},
    b.StandsAt around →
    Meets (e.occurrences around) b (e.bindNames around.surroundings b)
  | .literal _, _, _ => .of_same rfl rfl rfl
  | .grouping inner, _, hb => inner.meets_bindNames htidy hb
  | .unary _ _ operand, _, hb => operand.meets_bindNames htidy hb
  | .binary _ _ left right, b, hb =>
    (left.meets_bindNames htidy hb).trans
      (right.meets_bindNames htidy ((left.scopes_bindNames _ b).trans hb))
  | .logical _ _ left right, b, hb =>
    (left.meets_bindNames htidy hb).trans
      (right.meets_bindNames htidy ((left.scopes_bindNames _ b).trans hb))
  | .variable _ _, _, hb => meets_read hb htidy rfl _ _
  | .assign _ _ value, b, hb =>
    (value.meets_bindNames htidy hb).trans
      (meets_refer ((value.scopes_bindNames _ b).trans hb) rfl rfl rfl rfl rfl
        (List.append_nil _).symm)
  | .call callee _ args, b, hb =>
    (callee.meets_bindNames htidy hb).trans
      (meets_bindArguments htidy args ((callee.scopes_bindNames _ b).trans hb))
  | .get object _, _, hb => object.meets_bindNames htidy hb
  | .set object _ value, b, hb =>
    (object.meets_bindNames htidy hb).trans
      (value.meets_bindNames htidy ((object.scopes_bindNames _ b).trans hb))
  | .this _ _, _, hb => meets_this hb _ _
  | .super _ _ _, _, hb => meets_super hb _ _

theorem meets_bindArguments {around : Path} (htidy : around.Tidy) : ∀ (args : List Expr)
    {b : Bindings}, b.StandsAt around →
    Meets (argumentOccurrences around args) b (bindArguments around.surroundings args b)
  | [], _, _ => .of_same rfl rfl rfl
  | argument :: args, b, hb =>
    (argument.meets_bindNames htidy hb).trans
      (meets_bindArguments htidy args ((argument.scopes_bindNames _ b).trans hb))

end

theorem meets_bindOptional {around : Path} (htidy : around.Tidy) (value : Option Expr)
    {b : Bindings} (hb : b.StandsAt around) :
    Meets (optionalOccurrences around value) b (bindOptional around.surroundings value b) := by
  rcases value with _ | value
  · exact .of_same rfl rfl rfl
  · exact value.meets_bindNames htidy hb

/-- A declared name is ready for the parts of its declaration. -/
theorem Bindings.StandsAt.declared {b : Bindings} {around : Path} (hb : b.StandsAt around)
    (name : Name) :
    ((b.declare name).define name).StandsAt (.declared name.text :: around) := by
  rw [StandsAt, scopes_define, scopes_declare, putName_putName, hb]
  rfl

theorem meets_parameters (params : List Name) {around : Path} {b : Bindings}
    (hb : b.StandsAt around) :
    Meets (parameterOccurrences around params) b (b.parameters params)
      ∧ (b.parameters params).StandsAt (around.behindParams params) := by
  induction params generalizing around b with
  | nil => exact ⟨.of_same rfl rfl rfl, hb⟩
  | cons param params ih =>
    have hparam := (meets_declare hb param).trans_same ((b.declare param).meets_define param)
    obtain ⟨hrest, hbehind⟩ := ih (hb.declared param)
    exact ⟨hparam.trans hrest, hbehind⟩

/-- The scopes behind a statement are those of the path behind it. -/
theorem tables_behind (around : Path) (s : Stmt) :
    (around.behind s).tables = s.scopesAfter around.tables := by
  unfold Path.behind Stmt.scopesAfter
  rcases s.declaredName with _ | text <;> rfl

/-- Declared names open no function and no class. -/
theorem surroundings_behind (around : Path) (s : Stmt) :
    (around.behind s).surroundings = around.surroundings := by
  unfold Path.behind
  split <;> rfl

theorem surroundings_behindParams (around : Path) (params : List Name) :
    (around.behindParams params).surroundings = around.surroundings := by
  induction params generalizing around with
  | nil => rfl
  | cons param params ih => exact ih (.declared param.text :: around)

theorem meets_classHead {b : Bindings} {around : Path} (hb : b.StandsAt around)
    (hready : around.Ready) (surroundings : Surroundings)
    (hfunction : surroundings.inFunction = around.surroundings.inFunction) (name : Name)
    (superclass : Option Reference) :
    Meets (⟨.declaration name, around⟩
        :: superclassOccurrences (.declared name.text :: around) name superclass)
      b (b.classHead surroundings name superclass) := by
  have hname := (meets_declare hb name).trans_same ((b.declare name).meets_define name)
  rcases superclass with _ | superclass
  · exact hname
  · have htidy : Path.Tidy (.declared name.text :: around) :=
      (hready.cons (.declared name.text) fun _ => nofun).tidy
    have hinherits : Meets [⟨.inheritance name superclass.name, .declared name.text :: around⟩] _
        (((b.declare name).define name).noteIf (superclass.name.text == name.text)
          superclass.name .selfInheritance) :=
      meets_noteIf (by simp [Occurrence.error?]) rfl
    have hstands : (((b.declare name).define name).noteIf (superclass.name.text == name.text)
        superclass.name .selfInheritance).StandsAt (.declared name.text :: around) :=
      (scopes_noteIf ..).trans (hb.declared name)
    have hread := meets_read hstands htidy hfunction superclass.name superclass.id
    exact ((hname.trans (hinherits.trans hread)).trans_same (meets_enter _)).trans_same
      (meets_put _ "super" .defined)

mutual

theorem Stmt.meets_bindNames : ∀ (s : Stmt), s.WellFormed → ∀ {around : Path}, around.Ready →
    ∀ {b : Bindings}, b.StandsAt around →
    Meets (s.occurrences around) b (s.bindNames around.surroundings b)
  | .expression value, _, _, hready, _, hb => value.meets_bindNames hready.tidy hb
  | .print value, _, _, hready, _, hb => value.meets_bindNames hready.tidy hb
  | .var name initializer, _, around, hready, b, hb => by
    have hdeclared : (b.declare name).StandsAt (.initializer name.text :: around) := by
      rw [StandsAt, scopes_declare, hb]
      rfl
    have hinitializer := meets_bindOptional (hready.initializes name.text) initializer hdeclared
    exact (meets_declare hb name).trans (hinitializer.trans_same (meets_define _ name))
  | .block body, h, around, hready, b, hb => by
    rw [Stmt.WellFormed] at h
    have hopened : b.enter.StandsAt (.block :: around) := congrArg (∅ :: ·) hb
    have hbody := meets_bindStatements body h (hready.cons .block fun _ => nofun) hopened
    exact ((meets_enter b).same_trans hbody).trans_same (meets_leave _)
  | .ifElse condition thenBranch none, h, around, hready, b, hb => by
    rw [Stmt.WellFormed] at h
    exact (condition.meets_bindNames hready.tidy hb).trans
      (thenBranch.meets_bindNames h.2.1 hready ((condition.scopes_bindNames _ b).trans hb))
  | .ifElse condition thenBranch (some elseBranch), h, around, hready, b, hb => by
    rw [Stmt.WellFormed] at h
    have hcondition := (condition.scopes_bindNames around.surroundings b).trans hb
    have hthen : (thenBranch.bindNames around.surroundings
        (condition.bindNames around.surroundings b)).StandsAt around := by
      rw [StandsAt, thenBranch.scopes_bindNames _ h.2.1.1, Stmt.scopesAfter_of_plain h.2.1.2,
        hcondition]
    exact (condition.meets_bindNames hready.tidy hb).trans
      ((thenBranch.meets_bindNames h.2.1.1 hready hcondition).trans
        (elseBranch.meets_bindNames h.2.2.1 hready hthen))
  | .whileLoop condition body, h, around, hready, b, hb => by
    rw [Stmt.WellFormed] at h
    exact (condition.meets_bindNames hready.tidy hb).trans
      (body.meets_bindNames h.2.1 hready ((condition.scopes_bindNames _ b).trans hb))
  | .function declaration, h, around, hready, b, hb => by
    rw [Stmt.WellFormed] at h
    have hname := (meets_declare hb declaration.name).trans_same
      (meets_define _ declaration.name)
    exact hname.trans (declaration.meets_bindNames none h
      (hready.cons (.declared declaration.name.text) fun _ => nofun)
      (hb.declared declaration.name))
  | .return line value, _, around, hready, b, hb =>
    (meets_checkReturn b around line value.isSome).trans
      (meets_bindOptional hready.tidy value ((b.scopes_checkReturn ..).trans hb))
  | .class name superclass methods, h, around, hready, b, hb => by
    rw [Stmt.WellFormed] at h
    have hinside : { around.surroundings with
          inClass := if superclass.isSome then ClassContext.derived else .plain }
        = Path.surroundings (.class superclass.isSome :: .declared name.text :: around) := by
      rcases superclass with _ | _ <;> rfl
    have hhead := meets_classHead hb hready
      (Path.surroundings (.class superclass.isSome :: .declared name.text :: around)) rfl name
      superclass
    have hopened := (hhead.trans_same (meets_enter _)).trans_same (meets_put _ "this" .defined)
    have hstands := (b.scopes_classHead
      (Path.surroundings (.class superclass.isSome :: .declared name.text :: around)) name
      superclass).trans (congrArg (fun scopes => methodScopes superclass.isSome
        (putName name.text .defined scopes)) hb)
    have hmethods := meets_bindMethods methods h.2.2
      ((hready.cons (.declared name.text) fun _ => nofun).cons (.class superclass.isSome)
        fun _ => nofun) hstands
    have hclosed := (hopened.trans hmethods).trans_same (meets_leave _)
    rw [Stmt.bindNames, hinside]
    split
    · exact hclosed.trans_same (meets_leave _)
    · exact hclosed

theorem FunctionDecl.meets_bindNames (method : Option String) : ∀ (f : FunctionDecl),
    f.WellFormed → ∀ {around : Path}, around.Ready → ∀ {b : Bindings}, b.StandsAt around →
    Meets (f.occurrences method around) b
      (f.bindNames (Path.surroundings (.function method :: around)) b)
  | ⟨name, params, body⟩, h, around, hready, b, hb => by
    rw [FunctionDecl.WellFormed] at h
    have hopened : b.enter.StandsAt (.function method :: around) := congrArg (∅ :: ·) hb
    have hready := hready.cons (.function method) fun _ => nofun
    obtain ⟨hparams, hbehind⟩ := meets_parameters params hopened
    have hbody := meets_bindStatements body h.2.2 (hready.behindParams params) hbehind
    rw [surroundings_behindParams] at hbody
    exact (((meets_enter b).same_trans hparams).trans hbody).trans_same (meets_leave _)

theorem meets_bindStatements : ∀ (body : List Stmt), WellFormedStatements body →
    ∀ {around : Path}, around.Ready → ∀ {b : Bindings}, b.StandsAt around →
    Meets (statementOccurrences around body) b (bindStatements around.surroundings body b)
  | [], _, _, _, _, _ => .of_same rfl rfl rfl
  | s :: rest, h, around, hready, b, hb => by
    rw [WellFormedStatements] at h
    have hbehind : (s.bindNames around.surroundings b).StandsAt (around.behind s) := by
      rw [StandsAt, s.scopes_bindNames _ h.1, hb, tables_behind]
    have hrest := meets_bindStatements rest h.2 (hready.behind s) hbehind
    rw [surroundings_behind] at hrest
    exact (s.meets_bindNames h.1 hready hb).trans hrest

theorem meets_bindMethods : ∀ (methods : List FunctionDecl), WellFormedMethods methods →
    ∀ {around : Path}, around.Ready → ∀ {b : Bindings}, b.StandsAt around →
    Meets (methodOccurrences around methods) b (bindMethods around.surroundings methods b)
  | [], _, _, _, _, _ => .of_same rfl rfl rfl
  | method :: rest, h, around, hready, b, hb => by
    rw [WellFormedMethods] at h
    have hmethod := method.meets_bindNames (some method.name.text) h.1 hready hb
    have hbehind := (method.scopes_bindNames
      (Path.surroundings (.function (some method.name.text) :: around)) h.1 b).trans hb
    exact hmethod.trans (meets_bindMethods rest h.2 hready hbehind)

end

/-- The walk over a program finds at each occurrence what its path says. -/
theorem Program.meets_bindings {program : Program} (h : WellFormedStatements program) :
    Meets (Program.occurrences program) .empty (Program.bindings program) :=
  have hready : Path.Ready [] := fun _ => List.not_mem_nil
  meets_bindStatements program h hready rfl

/-! ### Errors -/

/-- **The errors of a program are its broken rules.**  There is one for each occurrence that
    breaks a rule, in the order of the occurrences, and there are no others.  A declaration must
    not repeat a name of its scope, a variable must not be read in its own initializer, `return`
    needs a function and gives no value in an initializer of instances, `this` needs a class,
    `super` one with a superclass, and no class is its own superclass. -/
theorem bindings_errors (source : String) (first : Nat) :
    let program := (Cursor.start (tokens source) first).program.1
    (Program.bindings program).errors
      = (Program.occurrences program).filterMap Occurrence.error? := by
  have hwell := (Cursor.program_numbered (Cursor.start_lexed source first)).2.2
  exact (Program.meets_bindings hwell).errors

/-- A function in a method named `init` may return values, the method may not. -/
example :
    let source := "class A { init(a, a) { fun f() { return this; } return f; } }"
      ++ "{ var b = b; super.c; }"
    (Program.bindings (Cursor.start (tokens source) 0).program.1).errors.map BindingError.fault
      = [.alreadyDeclared, .initializerReturn, .ownInitializer, .superOutsideClass] := by
  decide +kernel

/-! ### Hop counts -/

theorem Path.hops?_eq_some_iff {around : Path} {text : String} {hops : Nat} :
    around.hops? text = some hops ↔ around.SeesAt text hops := by
  unfold Path.hops? Path.SeesAt
  rw [List.findIdx?_eq_some_iff_getElem]
  constructor
  · rintro ⟨hlt, hfound, hinner⟩
    refine ⟨⟨_, List.getElem?_eq_getElem hlt, List.contains_iff_mem.mp hfound⟩, ?_⟩
    intro inner hless names hnames htext
    obtain ⟨hbound, rfl⟩ := List.getElem?_eq_some_iff.mp hnames
    exact absurd (List.contains_iff_mem.mpr htext) (hinner inner hless)
  · rintro ⟨⟨names, hnames, htext⟩, hinner⟩
    obtain ⟨hlt, rfl⟩ := List.getElem?_eq_some_iff.mp hnames
    refine ⟨hlt, List.contains_iff_mem.mpr htext, fun inner hless hfound => ?_⟩
    exact hinner inner hless _ (List.getElem?_eq_getElem _) (List.contains_iff_mem.mp hfound)

theorem Path.hops?_eq_none_iff {around : Path} {text : String} :
    around.hops? text = none ↔ ¬ around.Sees text := by
  unfold Path.hops? Path.Sees
  rw [List.findIdx?_eq_none_iff]
  simp

/-- An occurrence records nothing about other references. -/
theorem Occurrence.getElem?_record_of_ne {o : Occurrence} {id : Nat} (h : o.id? ≠ some id)
    (table : HopTable) : (o.record table)[id]? = table[id]? := by
  rcases hreference : o.what.reference? with _ | ⟨other, text⟩
  · simp only [Occurrence.record, hreference]
  · have hne : other ≠ id := fun heq => h (by rw [Occurrence.id?, hreference, heq]; rfl)
    rcases hcount : o.around.hops? text with _ | hops
    · simp only [Occurrence.record, hreference, hcount]
    · simp [Occurrence.record, hreference, hcount, Std.ExtTreeMap.getElem?_insert, hne]

theorem Occurrence.getElem?_record {o : Occurrence} {id : Nat} {text : String}
    (h : o.what.reference? = some (id, text)) {table : HopTable} (htable : table[id]? = none) :
    (o.record table)[id]? = o.around.hops? text := by
  rcases hcount : o.around.hops? text with _ | hops
  · simpa only [Occurrence.record, h, hcount] using htable
  · simp [Occurrence.record, h, hcount]

theorem getElem?_records_of_not_mem {occurrences : List Occurrence} {id : Nat}
    (h : id ∉ occurrences.filterMap Occurrence.id?) (table : HopTable) :
    (occurrences.foldl (fun table o => o.record table) table)[id]? = table[id]? := by
  induction occurrences generalizing table with
  | nil => rfl
  | cons o rest ih =>
    have hparts : o.id? ≠ some id ∧ id ∉ rest.filterMap Occurrence.id? := by
      simp only [List.mem_filterMap, List.mem_cons, not_exists, not_and] at h ⊢
      exact ⟨h o (Or.inl rfl), fun other hother => h other (Or.inr hother)⟩
    rw [List.foldl_cons, ih hparts.2, Occurrence.getElem?_record_of_ne hparts.1]

/-- A reference that occurs once gets the hop count of its place. -/
theorem getElem?_records {occurrences : List Occurrence}
    (hnodup : (occurrences.filterMap Occurrence.id?).Nodup) {o : Occurrence}
    (ho : o ∈ occurrences) {id : Nat} {text : String} (h : o.what.reference? = some (id, text))
    {table : HopTable} (htable : table[id]? = none) :
    (occurrences.foldl (fun table o => o.record table) table)[id]? = o.around.hops? text := by
  have hid : o.id? = some id := by rw [Occurrence.id?, h]; rfl
  induction occurrences generalizing table with
  | nil => cases ho
  | cons first rest ih =>
    rw [List.foldl_cons]
    rcases List.mem_cons.mp ho with rfl | hrest
    · rw [List.filterMap_cons_some hid] at hnodup
      rw [getElem?_records_of_not_mem (List.nodup_cons.mp hnodup).1,
        Occurrence.getElem?_record h htable]
    · have hmem : id ∈ rest.filterMap Occurrence.id? := List.mem_filterMap.mpr ⟨o, hrest, hid⟩
      rcases hfirst : first.id? with _ | other
      · rw [List.filterMap_cons_none hfirst] at hnodup
        exact ih hnodup hrest
          ((Occurrence.getElem?_record_of_ne (by simp [hfirst]) table).trans htable)
      · rw [List.filterMap_cons_some hfirst] at hnodup
        have hne : other ≠ id := fun heq => (List.nodup_cons.mp hnodup).1 (heq ▸ hmem)
        exact ih (List.nodup_cons.mp hnodup).2 hrest
          ((Occurrence.getElem?_record_of_ne (by simpa [hfirst] using hne) table).trans htable)

/-- **Hop counts are those of lexical scoping.**  The occurrences list every reference of a
    program.  The table holds the hop count of a reference exactly when a scope around it holds
    its name by then, and counts the scopes inside the innermost one that does.  A declared name
    counts within its own declaration. -/
theorem bindings_hops (source : String) (first : Nat) :
    let program := (Cursor.start (tokens source) first).program.1
    let hops := (Program.bindings program).hops
    (Program.occurrences program).filterMap Occurrence.id? = statementReferences program
      ∧ (∀ id ∉ statementReferences program, hops[id]? = none)
      ∧ (∀ o ∈ Program.occurrences program, ∀ id text, o.what.reference? = some (id, text) →
          (∀ count, hops[id]? = some count ↔ o.around.SeesAt text count)
            ∧ (hops[id]? = none ↔ ¬ o.around.Sees text))
      ∧ ∀ (around : Path) (s : Stmt) (text : String), around.scopes ≠ [] →
          s.declaredName = some text →
          ∀ o ∈ s.occurrences around, ∀ id, o.id? = some id → o.around.Sees text := by
  intro program hops
  obtain ⟨-, hnumbered, hwell⟩ := Cursor.program_numbered (Cursor.start_lexed source first)
  have hids :
      (Program.occurrences program).filterMap Occurrence.id? = statementReferences program :=
    ids_statementOccurrences [] program
  have hnodup : ((Program.occurrences program).filterMap Occurrence.id?).Nodup :=
    hids ▸ hnumbered.nodup
  have hempty : ∀ id : Nat, Bindings.empty.hops[id]? = none := fun id => by simp [Bindings.empty]
  have htable : hops = _ := (Program.meets_bindings hwell).hops
  refine ⟨hids, fun id hid => ?_, fun o ho id text hreference => ?_, ?_⟩
  · rw [htable, getElem?_records_of_not_mem (hids ▸ hid), hempty]
  · have hcount : hops[id]? = o.around.hops? text := by
      rw [htable]
      exact getElem?_records hnodup ho hreference (hempty id)
    rw [hcount]
    exact ⟨fun count => Path.hops?_eq_some_iff, Path.hops?_eq_none_iff⟩
  · exact fun around s text hscopes htext => Stmt.references_see hscopes htext

/-- A function sees a variable of the block around it, one scope outward, and its own name. -/
theorem bindings_hops_function :
    let program := (Cursor.start (tokens "{ var a; fun f() { a = f; } }") 0).program.1
    (Program.bindings program).hops[2]? = some 1
      ∧ (Program.bindings program).hops[1]? = some 1 := by
  intro program
  let around : Path := [.function none, .declared "f", .declared "a", .block]
  have hoccurs : (⟨.assignment ⟨"a", 1⟩ 2, around⟩ : Occurrence) ∈ Program.occurrences program
      ∧ (⟨.variable ⟨"f", 1⟩ 1, around⟩ : Occurrence) ∈ Program.occurrences program := by
    decide +kernel
  have hsees : around.SeesAt "a" 1 ∧ around.SeesAt "f" 1 := by
    simp only [← Path.hops?_eq_some_iff]
    decide
  have hlaw := (bindings_hops "{ var a; fun f() { a = f; } }" 0).2.2.1
  exact ⟨((hlaw _ hoccurs.1 2 "a" rfl).1 1).mpr hsees.1,
    ((hlaw _ hoccurs.2 1 "f" rfl).1 1).mpr hsees.2⟩

end Treewalk
