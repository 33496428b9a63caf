import Treewalk.Binding
import Treewalk.Proofs.Syntax.References

/-!
# Other spellings

**A variable of a scope can be spelled in another way, wherever the table says that a reference
means it.**  Blocks and functions are numbered in the order in which they start, so a variable
that is not global is a number and a name.  Only a `var` and a parameter are spelled anew: functions
and classes show their names.

On the way through a tree it is marked which of the scopes around is the one meant.  A hop count
then tells whether a reference means a variable of that scope.
-/

namespace Treewalk

/-! ### Variables of scopes -/

mutual

/-- The number of blocks and functions in a statement. -/
def Stmt.scopeCount : Stmt → Nat
  | .block body => statementScopeCount body + 1
  | .ifElse _ thenBranch none => thenBranch.scopeCount
  | .ifElse _ thenBranch (some elseBranch) => thenBranch.scopeCount + elseBranch.scopeCount
  | .whileLoop _ body => body.scopeCount
  | .function declaration => declaration.scopeCount
  | .class _ _ methods => methodScopeCount methods
  | _ => 0

/-- A function is a scope, with its parameters and its body. -/
def FunctionDecl.scopeCount : FunctionDecl → Nat
  | ⟨_, _, body⟩ => statementScopeCount body + 1

def statementScopeCount : List Stmt → Nat
  | [] => 0
  | s :: rest => s.scopeCount + statementScopeCount rest

def methodScopeCount : List FunctionDecl → Nat
  | [] => 0
  | method :: rest => method.scopeCount + methodScopeCount rest

end

mutual

/-- The variables that are declared in a statement by `var` or as parameters, each with the number
of its scope.  The scopes in the statement are numbered from `first` on. -/
def Stmt.localVariables (around : Option Nat) (first : Nat) : Stmt → List (Nat × String)
  | .var name _ => around.toList.map fun scope => (scope, name.text)
  | .block body => statementVariables (some first) (first + 1) body
  | .ifElse _ thenBranch none => thenBranch.localVariables around first
  | .ifElse _ thenBranch (some elseBranch) =>
    thenBranch.localVariables around first
      ++ elseBranch.localVariables around (first + thenBranch.scopeCount)
  | .whileLoop _ body => body.localVariables around first
  | .function declaration => declaration.localVariables first
  | .class _ _ methods => methodVariables first methods
  | _ => []

def FunctionDecl.localVariables (first : Nat) : FunctionDecl → List (Nat × String)
  | ⟨_, params, body⟩ =>
    params.map (fun param => (first, param.text)) ++ statementVariables (some first) (first + 1) body

def statementVariables (around : Option Nat) (first : Nat) : List Stmt → List (Nat × String)
  | [] => []
  | s :: rest =>
    s.localVariables around first ++ statementVariables around (first + s.scopeCount) rest

def methodVariables (first : Nat) : List FunctionDecl → List (Nat × String)
  | [] => []
  | method :: rest =>
    method.localVariables first ++ methodVariables (first + method.scopeCount) rest

end

/-- The variables of a program that are not global, apart from functions and classes. -/
def Program.localVariables (program : Program) : List (Nat × String) :=
  statementVariables none 0 program

/-! ### Variables are free to be names -/

mutual

theorem Stmt.isUnreserved_of_localVariables {around : Option Nat} : ∀ (s : Stmt) {first : Nat},
    s.WellFormed → ∀ entry ∈ s.localVariables around first, IsUnreserved entry.2
  | .var name initializer, _, hs, entry, hentry => by
    rw [Stmt.WellFormed] at hs
    rw [Stmt.localVariables] at hentry
    obtain ⟨scope, -, rfl⟩ := List.mem_map.mp hentry
    exact hs.1
  | .block body, _, hs, entry, hentry => by
    rw [Stmt.WellFormed] at hs
    rw [Stmt.localVariables] at hentry
    exact isUnreserved_of_statementVariables body hs entry hentry
  | .ifElse _ thenBranch none, _, hs, entry, hentry => by
    rw [Stmt.WellFormed] at hs
    rw [Stmt.localVariables] at hentry
    exact thenBranch.isUnreserved_of_localVariables hs.2.1 entry hentry
  | .ifElse _ thenBranch (some elseBranch), _, hs, entry, hentry => by
    rw [Stmt.WellFormed] at hs
    rw [Stmt.localVariables] at hentry
    rcases List.mem_append.mp hentry with hthen | helse
    · exact thenBranch.isUnreserved_of_localVariables hs.2.1.1 entry hthen
    · exact elseBranch.isUnreserved_of_localVariables hs.2.2.1 entry helse
  | .whileLoop _ body, _, hs, entry, hentry => by
    rw [Stmt.WellFormed] at hs
    rw [Stmt.localVariables] at hentry
    exact body.isUnreserved_of_localVariables hs.2.1 entry hentry
  | .function declaration, _, hs, entry, hentry => by
    rw [Stmt.WellFormed] at hs
    rw [Stmt.localVariables] at hentry
    exact declaration.isUnreserved_of_localVariables hs entry hentry
  | .class _ _ methods, _, hs, entry, hentry => by
    rw [Stmt.WellFormed] at hs
    rw [Stmt.localVariables] at hentry
    exact isUnreserved_of_methodVariables methods hs.2.2 entry hentry
  | .expression _, _, _, _, hentry => by cases hentry
  | .print _, _, _, _, hentry => by cases hentry
  | .return _ _, _, _, _, hentry => by cases hentry

theorem FunctionDecl.isUnreserved_of_localVariables : ∀ (f : FunctionDecl) {first : Nat},
    f.WellFormed → ∀ entry ∈ f.localVariables first, IsUnreserved entry.2
  | ⟨_, params, body⟩, _, hf, entry, hentry => by
    rw [FunctionDecl.WellFormed] at hf
    rw [FunctionDecl.localVariables] at hentry
    rcases List.mem_append.mp hentry with hparam | hbody
    · obtain ⟨param, hmem, rfl⟩ := List.mem_map.mp hparam
      exact hf.2.1 param hmem
    · exact isUnreserved_of_statementVariables body hf.2.2 entry hbody

theorem isUnreserved_of_statementVariables {around : Option Nat} : ∀ (body : List Stmt) {first : Nat},
    WellFormedStatements body → ∀ entry ∈ statementVariables around first body, IsUnreserved entry.2
  | [], _, _, _, hentry => by cases hentry
  | s :: rest, _, hbody, entry, hentry => by
    rw [WellFormedStatements] at hbody
    rw [statementVariables] at hentry
    rcases List.mem_append.mp hentry with hfirst | hrest
    · exact s.isUnreserved_of_localVariables hbody.1 entry hfirst
    · exact isUnreserved_of_statementVariables rest hbody.2 entry hrest

theorem isUnreserved_of_methodVariables : ∀ (methods : List FunctionDecl) {first : Nat},
    WellFormedMethods methods → ∀ entry ∈ methodVariables first methods, IsUnreserved entry.2
  | [], _, _, _, hentry => by cases hentry
  | method :: rest, _, hmethods, entry, hentry => by
    rw [WellFormedMethods] at hmethods
    rw [methodVariables] at hentry
    rcases List.mem_append.mp hentry with hfirst | hrest
    · exact method.isUnreserved_of_localVariables hmethods.1 entry hfirst
    · exact isUnreserved_of_methodVariables rest hmethods.2 entry hrest

end

/-! ### Respelling -/

/-- A variable, given by the number of its scope and its name, and another spelling for it.  The
table has the hop counts of the references. -/
structure Respelling where
  table : HopTable
  scope : Nat
  old : String
  new : String

namespace Respelling

variable (r : Respelling)

/-- A name of the scope, if `here` says so, in its spelling. -/
def spell (here : Bool) (name : Name) : Name :=
  if here && name.text == r.old then ⟨r.new, name.line⟩ else name

/-- Is it the scope that the reference means?  The marks tell which of the scopes around is. -/
def isMeant (marks : List Bool) (id : Nat) : Bool :=
  (r.table[id]?).any fun hops => marks.getD hops false

end Respelling

mutual

/-- An expression with other spellings. -/
def Expr.respell (r : Respelling) (marks : List Bool) : Expr → Expr
  | .literal value => .literal value
  | .grouping inner => .grouping (inner.respell r marks)
  | .unary op line operand => .unary op line (operand.respell r marks)
  | .binary op line left right => .binary op line (left.respell r marks) (right.respell r marks)
  | .logical op line left right => .logical op line (left.respell r marks) (right.respell r marks)
  | .variable name id => .variable (r.spell (r.isMeant marks id) name) id
  | .assign name id value => .assign (r.spell (r.isMeant marks id) name) id (value.respell r marks)
  | .call callee line args => .call (callee.respell r marks) line (respellArguments r marks args)
  | .get object name => .get (object.respell r marks) name
  | .set object name value => .set (object.respell r marks) name (value.respell r marks)
  | .this line id => .this line id
  | .super line id method => .super line id method

def respellArguments (r : Respelling) (marks : List Bool) : List Expr → List Expr
  | [] => []
  | argument :: args => argument.respell r marks :: respellArguments r marks args

end

def Reference.respell (r : Respelling) (marks : List Bool) (reference : Reference) : Reference :=
  ⟨r.spell (r.isMeant marks reference.id) reference.name, reference.id⟩

/-- The marks around the methods of a class. -/
def methodMarks (derived : Bool) (marks : List Bool) : List Bool :=
  false :: if derived then false :: marks else marks

mutual

/-- A statement with other spellings.  The scopes in it are numbered from `first` on. -/
def Stmt.respell (r : Respelling) (marks : List Bool) (first : Nat) : Stmt → Stmt
  | .expression value => .expression (value.respell r marks)
  | .print value => .print (value.respell r marks)
  | .var name initializer =>
    .var (r.spell (marks.headD false) name) (initializer.map (Expr.respell r marks))
  | .block body => .block (respellStatements r ((first == r.scope) :: marks) (first + 1) body)
  | .ifElse condition thenBranch none =>
    .ifElse (condition.respell r marks) (thenBranch.respell r marks first) none
  | .ifElse condition thenBranch (some elseBranch) =>
    .ifElse (condition.respell r marks) (thenBranch.respell r marks first)
      (some (elseBranch.respell r marks (first + thenBranch.scopeCount)))
  | .whileLoop condition body => .whileLoop (condition.respell r marks) (body.respell r marks first)
  | .function declaration => .function (declaration.respell r marks first)
  | .return line value => .return line (value.map (Expr.respell r marks))
  | .class name superclass methods =>
    .class name (superclass.map (Reference.respell r marks))
      (respellMethods r (methodMarks superclass.isSome marks) first methods)

def FunctionDecl.respell (r : Respelling) (marks : List Bool) (first : Nat) :
    FunctionDecl → FunctionDecl
  | ⟨name, params, body⟩ =>
    ⟨name, params.map (r.spell (first == r.scope)),
      respellStatements r ((first == r.scope) :: marks) (first + 1) body⟩

def respellStatements (r : Respelling) (marks : List Bool) (first : Nat) : List Stmt → List Stmt
  | [] => []
  | s :: rest =>
    s.respell r marks first :: respellStatements r marks (first + s.scopeCount) rest

def respellMethods (r : Respelling) (marks : List Bool) (first : Nat) :
    List FunctionDecl → List FunctionDecl
  | [] => []
  | method :: rest =>
    method.respell r marks first :: respellMethods r marks (first + method.scopeCount) rest

end

/-- A program with another spelling for a variable of a scope, wherever it is declared or meant. -/
def Program.respell (program : Program) (table : HopTable) (scope : Nat) (old new : String) : Program :=
  respellStatements ⟨table, scope, old, new⟩ [] 0 program

/-! ### Words that occur nowhere -/

mutual

/-- The word is not the name of a variable in the expression. -/
def Expr.Avoids (word : String) : Expr → Prop
  | .literal _ => True
  | .grouping inner => inner.Avoids word
  | .unary _ _ operand => operand.Avoids word
  | .binary _ _ left right => left.Avoids word ∧ right.Avoids word
  | .logical _ _ left right => left.Avoids word ∧ right.Avoids word
  | .variable name _ => name.text ≠ word
  | .assign name _ value => value.Avoids word ∧ name.text ≠ word
  | .call callee _ args => callee.Avoids word ∧ AvoidedArguments word args
  | .get object _ => object.Avoids word
  | .set object _ value => object.Avoids word ∧ value.Avoids word
  | .this _ _ => True
  | .super _ _ _ => True

def AvoidedArguments (word : String) : List Expr → Prop
  | [] => True
  | argument :: args => argument.Avoids word ∧ AvoidedArguments word args

end

mutual

/-- The word is not the name of a variable, function or class in the statement. -/
def Stmt.Avoids (word : String) : Stmt → Prop
  | .expression value => value.Avoids word
  | .print value => value.Avoids word
  | .var name initializer => name.text ≠ word ∧ ∀ value, initializer = some value → value.Avoids word
  | .block body => AvoidedStatements word body
  | .ifElse condition thenBranch none => condition.Avoids word ∧ thenBranch.Avoids word
  | .ifElse condition thenBranch (some elseBranch) =>
    condition.Avoids word ∧ thenBranch.Avoids word ∧ elseBranch.Avoids word
  | .whileLoop condition body => condition.Avoids word ∧ body.Avoids word
  | .function declaration => declaration.Avoids word
  | .return _ value => ∀ result, value = some result → result.Avoids word
  | .class name superclass methods =>
    name.text ≠ word ∧ (∀ parent, superclass = some parent → parent.name.text ≠ word)
      ∧ AvoidedMethods word methods

def FunctionDecl.Avoids (word : String) : FunctionDecl → Prop
  | ⟨name, params, body⟩ =>
    name.text ≠ word ∧ (∀ param ∈ params, param.text ≠ word) ∧ AvoidedStatements word body

def AvoidedStatements (word : String) : List Stmt → Prop
  | [] => True
  | s :: rest => s.Avoids word ∧ AvoidedStatements word rest

def AvoidedMethods (word : String) : List FunctionDecl → Prop
  | [] => True
  | method :: rest => method.Avoids word ∧ AvoidedMethods word rest

end

theorem FunctionDecl.name_ne_of_avoids {word : String} (f : FunctionDecl) (h : f.Avoids word) :
    f.name.text ≠ word := by
  cases f
  rw [FunctionDecl.Avoids] at h
  exact h.1

end Treewalk
