import Treewalk.Proofs.Evaluation.ForLoops
import Treewalk.Proofs.Syntax.Numbering
import Treewalk.Proofs.Thinning.Alignment

/-!
# One machine, two tables

**A sound machine is aligned with itself under another table, if that has the hop counts that are
kept.**  All frames are there on both sides.  Another table may then hold the hop counts of code that is
placed in fewer scopes: the clauses of a `for` statement, in the scopes in which they are written.
-/

namespace Treewalk

open Tables

/-! ### All frames are kept -/

/-- Every frame is its own counterpart. -/
def Store.pairing (s : Store) : Pairing :=
  (List.range s.frames.size).map fun i => ((false, ⟨i⟩), s.enclosing? ⟨i⟩)

section Pairing

variable {s : Store} {f g : FrameId}

theorem Store.length_pairing (s : Store) : s.pairing.length = s.frames.size := by
  simp [Store.pairing]

theorem Store.getElem?_pairing (h : f.index < s.frames.size) :
    s.pairing[f.index]? = some ((false, f), s.enclosing? f) := by
  simp [Store.pairing, h]

theorem Store.kept_pairing (h : f.index < s.frames.size) : s.pairing.Kept f f :=
  ⟨_, Store.getElem?_pairing h⟩

theorem Store.of_getElem?_pairing {mark : Bool} {outer : Option FrameId}
    (h : s.pairing[f.index]? = some ((mark, g), outer)) :
    f.index < s.frames.size ∧ mark = false ∧ g = f ∧ outer = s.enclosing? f := by
  have hlt : f.index < s.frames.size := by
    rw [← s.length_pairing]
    exact (List.getElem?_eq_some_iff.mp h).1
  rw [Store.getElem?_pairing hlt] at h
  cases h
  exact ⟨hlt, rfl, rfl, rfl⟩

theorem Store.of_stands_pairing (h : s.pairing.Stands f g) : f.index < s.frames.size ∧ g = f := by
  obtain ⟨mark, outer, h⟩ := h
  obtain ⟨hlt, -, hg, -⟩ := Store.of_getElem?_pairing h
  exact ⟨hlt, hg⟩

/-- Frames stand for the same scopes on both sides. -/
theorem Store.Fits.around {scopes : List Scope} (h : s.Fits f scopes) :
    s.pairing.Around f scopes scopes := by
  suffices hchain : ∃ labels, s.pairing.Chain f labels
      ∧ labels.map Prod.fst = scopes.map fun _ => false by
    obtain ⟨labels, hchain, hmarks⟩ := hchain
    exact ⟨labels, hchain, hmarks ▸ Thins.same scopes⟩
  induction scopes generalizing f with
  | nil =>
    cases h
    exact ⟨[], .globals, rfl⟩
  | cons scope scopes ih =>
    obtain ⟨-, outer, houter, hfits⟩ := h
    obtain ⟨labels, hchain, hmarks⟩ := ih hfits
    have hget := Store.getElem?_pairing (Store.lt_size_of_enclosing? houter)
    rw [houter] at hget
    exact ⟨(false, f) :: labels, .inner hget hchain, congrArg (false :: ·) hmarks⟩

end Pairing

/-! ### Sound values are like themselves -/

section Values

variable {table other : HopTable} {kept : Nat → Prop} {s : Store}

/-- A function is like itself under both tables. -/
theorem FunctionDecl.Placed.like {f : FunctionDecl} {scopes : List Scope}
    (h : f.Placed table kept scopes) (hagree : ∀ id, kept id → table[id]? = other[id]?) :
    FunctionLike ⟨table, other⟩ scopes scopes f f where
  moved := ⟨fun id => id, (f.move_same).symm⟩
  left := h.withTable (fun _ _ => rfl) fun _ _ => trivial
  right := h.withTable hagree fun _ _ => trivial

theorem ClassValue.Sound.like (hsize : 0 < s.frames.size) {k : ClassValue}
    (h : k.Sound table kept s) (hagree : ∀ id, kept id → table[id]? = other[id]?) :
    ClassLike ⟨table, other⟩ s.pairing k k := by
  have hlayer : ∀ layer ∈ k.layers, LayerLike ⟨table, other⟩ s.pairing layer layer := by
    intro layer hlayer
    refine ⟨rfl, rfl, fun name => ?_⟩
    rcases hmethod : layer.methods[name]? with _ | method
    · exact .none
    · obtain ⟨scopes, hfits, hplaced⟩ := h layer hlayer name method hmethod
      exact .some ⟨Store.kept_pairing (hfits.lt_size hsize), rfl, scopes, scopes, hfits.around,
        hplaced.like hagree⟩
  refine ⟨hlayer k.own List.mem_cons_self, List.forall₂_same.mpr fun layer hmem => ?_⟩
  exact hlayer layer (List.mem_cons_of_mem _ hmem)

theorem Value.Sound.like (hsize : 0 < s.frames.size) {value : Value} (h : value.Sound table kept s)
    (hagree : ∀ id, kept id → table[id]? = other[id]?) :
    ValueLike ⟨table, other⟩ s.pairing value value := by
  cases value with
  | native f => exact .native f
  | function identity f =>
    obtain ⟨scopes, hfits, hplaced, -⟩ := h
    exact .function ⟨Store.kept_pairing (hfits.lt_size hsize), rfl, scopes, scopes, hfits.around,
      hplaced.like hagree⟩
  | «class» k => exact .class (ClassValue.Sound.like hsize h hagree)
  | «instance» o => exact .instance ⟨rfl, ClassValue.Sound.like hsize h hagree⟩
  | number value => exact .number value
  | string value => exact .string value
  | bool value => exact .bool value
  | nil => exact .nil

theorem optionLike_self {R : Value → Value → Prop} {found : Option Value}
    (h : ∀ value, found = some value → R value value) : Option.Rel R found found := by
  cases found with
  | none => exact .none
  | some value => exact .some (h value rfl)

theorem Machine.Sound.storeLike {m : Machine} (hm : m.Sound table kept)
    (hagree : ∀ id, kept id → table[id]? = other[id]?) :
    StoreLike ⟨table, other⟩ m.store.pairing m.store m.store where
  size := m.store.length_pairing.symm
  first := by
    rw [← m.store.enclosing?_globals]
    exact Store.getElem?_pairing (f := Store.globals) hm.size
  kept f g outer h := by
    obtain ⟨-, -, rfl, rfl⟩ := Store.of_getElem?_pairing h
    refine ⟨rfl, ?_⟩
    rcases houter : m.store.enclosing? g with _ | outer
    · exact .none
    · have hlt := Nat.lt_trans (Store.enclosing?_lt houter) (Store.lt_size_of_enclosing? houter)
      exact .some (Store.kept_pairing hlt).stands
  dropped f g outer h := by
    obtain ⟨-, hmark, -⟩ := Store.of_getElem?_pairing h
    cases hmark
  within f g h := by
    obtain ⟨hlt, rfl⟩ := Store.of_stands_pairing h
    exact hlt
  injective f f' g h h' := by
    obtain ⟨-, rfl⟩ := Store.of_stands_pairing h.stands
    exact (Store.of_stands_pairing h'.stands).2
  bound f g h name := by
    obtain ⟨-, rfl⟩ := Store.of_stands_pairing h.stands
    exact optionLike_self fun value hvalue => (hm.bound g name value hvalue).like hm.size hagree
  fieldsSize := rfl
  fields o o' ho name := by
    unfold Store.field?
    rw [ho]
    exact optionLike_self fun value hvalue => (hm.fields o name value hvalue).like hm.size hagree

/-- A machine is aligned with itself under a table that has the hop counts that are kept. -/
theorem Machine.Sound.alike {m : Machine} (hm : m.Sound table kept)
    (hagree : ∀ id, kept id → table[id]? = other[id]?)
    (hcurrent : m.current.index < m.store.frames.size) :
    MachineLike ⟨table, other⟩ m.store.pairing m { m with hops := other } where
  store := hm.storeLike hagree
  current := (Store.kept_pairing hcurrent).stands
  hops := hm.hops
  hops' := rfl
  sink := rfl
  identities := rfl
  clock := rfl

end Values

/-! ### Clauses in the scopes in which they are written -/

namespace ForClauses

section Scopes

variable {table : HopTable} {kept : Nat → Prop} {around inner : List Scope} {clauses : ForClauses}

theorem statement_move (σ : Shift) (clauses : ForClauses) :
    (clauses.move σ).statement = clauses.statement.move σ :=
  Parser.forLoop_move σ _ _ _ _

theorem references_statement (clauses : ForClauses) : clauses.statement.references =
    Parser.clauseReferences clauses.initializer ++ (optionalReferences clauses.condition
      ++ (clauses.body.references ++ optionalReferences clauses.increment)) :=
  Parser.references_forLoop _ _ _ _

/-- Body and increment are placed in the same scopes.  If the parser has joined them to a block, they can
    do without the scope of this block. -/
theorem placed_round (hplain : clauses.body.isDeclaration = false)
    (h : clauses.round.Placed table kept inner) :
    ∃ marks L, Thins marks L inner ∧ clauses.body.Placed table kept L
      ∧ ∀ e, clauses.increment = some e → e.Placed table L := by
  unfold round at h
  generalize clauses.increment = clause at h
  cases clause with
  | none => exact ⟨_, inner, .same inner, h, nofun⟩
  | some increment =>
    rw [Stmt.Placed, PlacedStatements, PlacedStatements, Stmt.scopesAfter_of_plain hplain] at h
    refine ⟨_, ∅ :: inner, .drop (.same inner), h.1, fun e he => ?_⟩
    cases he
    exact h.2.1

theorem scopes_move (σ : Shift) (clauses : ForClauses) (around : List Scope) :
    (clauses.move σ).scopes around = clauses.scopes around := by
  unfold scopes move
  cases clauses.initializer with
  | none => rfl
  | some initializer =>
    unfold Stmt.scopesAfter
    dsimp only [Option.map_some]
    rw [Stmt.declaredName_move]

end Scopes

section Tables

variable {left : HopTable} {kept : Nat → Prop} {around : List Scope} {ι : Nat → Nat}

theorem settable_initializer {marks : List Bool} {L R : List Scope} (hthins : Thins marks L R)
    (hmarks : marks.head? ≠ some true) (clause : Option Stmt)
    (h : ∀ s, clause = some s → s.Placed left kept L)
    (hnodup : (Parser.clauseReferences (clause.map (Stmt.move (.ofIds ι)))).Nodup) :
    Settable (Parser.clauseReferences (clause.map (Stmt.move (.ofIds ι)))) fun table =>
      ∀ s, clause.map (Stmt.move (.ofIds ι)) = some s → s.Placed table (fun _ => True) R := by
  cases clause with
  | none => exact settable_nil fun table s hs => by cases hs
  | some initializer =>
    refine (initializer.settable hthins (fun _ => hmarks) (h initializer rfl) hnodup).imp ?_
    intro table htable s hs
    cases hs
    exact htable

theorem optional_of_agree {table other : HopTable} {scopes : List Scope} {value : Option Expr}
    (h : ∀ e, value = some e → e.Placed table scopes)
    (hagree : ∀ id ∈ optionalReferences value, table[id]? = other[id]?) :
    ∀ e, value = some e → e.Placed other scopes := by
  rintro e rfl
  exact e.placed_of_agree (h e rfl) hagree

theorem initializer_of_agree {table other : HopTable} {scopes : List Scope} {clause : Option Stmt}
    (h : ∀ s, clause = some s → s.Placed table kept scopes)
    (hagree : ∀ id ∈ Parser.clauseReferences clause, table[id]? = other[id]?) :
    ∀ s, clause = some s → s.Placed other kept scopes := by
  rintro s rfl
  exact s.placed_of_agree (fun _ hid => hid) (h s rfl) hagree

/-- The clauses can be placed in the scopes in which they are written, if their references are their
    own. -/
theorem settable {clauses : ForClauses} (hplain : clauses.body.isDeclaration = false)
    (h : clauses.statement.Placed left kept around)
    (hnodup : (clauses.statement.move (.ofIds ι)).references.Nodup) :
    Settable (clauses.statement.move (.ofIds ι)).references fun table =>
      (clauses.move (.ofIds ι)).Placed table around := by
  obtain ⟨hinitializer, hrounds⟩ := placed_rounds h
  obtain ⟨hcondition, hround⟩ := placed_condition hrounds
  obtain ⟨marks, L, hthins, hbody, hincrement⟩ := placed_round hplain hround
  have hsame := Thins.same (clauses.scopes around)
  rw [← statement_move, references_statement] at hnodup ⊢
  have hfirst := List.nodup_append.mp hnodup
  have hsecond := List.nodup_append.mp hfirst.2.1
  have hthird := List.nodup_append.mp hsecond.2.1
  have hkept := Stmt.keptIn_of_plain hplain marks
  have hparts := (clauses.body.settable hthins hkept hbody hthird.1).and hsecond.2.1
    (settable_optional hthins clauses.increment hincrement hthird.2.1)
    fun _ _ h hagree => Stmt.placed_of_agree (fun _ hid => hid) _ h hagree
  have hround := (settable_optional hsame clauses.condition hcondition hsecond.1).and hfirst.2.1
    hparts fun _ _ h hagree => optional_of_agree h hagree
  have hset := (settable_initializer (.same (∅ :: around)) nofun clauses.initializer hinitializer
    hfirst.1).and hnodup hround fun _ _ h hagree => initializer_of_agree h hagree
  refine hset.imp ?_
  rintro table ⟨hinitializer, hcondition, hbody, hincrement⟩
  refine ⟨hinitializer, ?_⟩
  rw [scopes_move]
  exact ⟨hcondition, hincrement, hbody⟩

end Tables

end ForClauses

end Treewalk
