import Treewalk.Syntax
import Treewalk.Syntax.Error

/-!
# From tokens to syntax trees

**A parser reads tokens from the front of a cursor and either returns a tree or stops at the
token where the grammar breaks.**  A declaration that breaks is dropped: its error is noted, the
tokens up to the next likely start of a statement are skipped, and parsing goes on there.

Binary operators are read level by level, from the loosest to the tightest; each level is a
chain that associates to the left.  Assignment associates to the right and has its target
checked after it was read.

Every call spends one step of a budget.  Between two tokens at most sixteen calls follow each
other, so sixteen steps a token, and sixteen more for the end, are enough for every input.
-/

namespace Treewalk

/-! ### The cursor -/

/-- The state of a parser (`Parser`). -/
structure Cursor where
  /-- The tokens not yet read, without the end of the source. -/
  rest : List Token
  /-- The token that ends the source. -/
  stop : Token
  /-- The number of the next reference. -/
  nextId : Nat
  /-- The errors noted so far, in the order in which they were found. -/
  errors : List SyntaxError

/-- A parser changes the cursor and returns a result or the error that stops it.  The cursor
    stays where it was stopped. -/
abbrev Parser := EStateM SyntaxError Cursor

namespace Cursor

/-- A cursor in front of the first token; references are numbered from `firstId`
    (`Parser::with_first_id`). -/
def start (tokens : List Token) (firstId : Nat) : Cursor :=
  { rest := tokens.takeWhile fun t => !t.isEnd
    stop := (tokens.find? Token.isEnd).getD ⟨.eof, "", 1⟩
    nextId := firstId
    errors := [] }

/-- The next token, which may be the end of the source. -/
def next (c : Cursor) : Token :=
  c.rest.headD c.stop

/-- Notes an error. -/
def note (c : Cursor) (e : SyntaxError) : Cursor :=
  { c with errors := c.errors ++ [e] }

/-- Enough steps for every parser that starts here. -/
def steps (c : Cursor) : Nat :=
  16 * (c.rest.length + 1)

end Cursor

namespace Parser

/-! ### Single tokens -/

/-- The next token (`peek`). -/
def peek : Parser Token := fun c =>
  .ok c.next c

/-- Reads the next token, whatever it is (`advance`).  The end of the source is never read. -/
def skip : Parser PUnit := fun c =>
  .ok ⟨⟩ { c with rest := c.rest.tail }

/-- Reads the next token if it has the form of `kind` (`matches`). -/
def accept (kind : TokenKind) : Parser (Option Token) := fun c =>
  match c.rest with
  | t :: rest => if t.kind.sameForm kind then .ok (some t) { c with rest } else .ok none c
  | [] => .ok none c

/-- Stops at the next token. -/
def fail {α : Type} (fault : SyntaxFault) : Parser α := fun c =>
  .error ⟨c.next, fault⟩ c

/-- Notes an error and goes on. -/
def note (token : Token) (fault : SyntaxFault) : Parser PUnit := fun c =>
  .ok ⟨⟩ (c.note ⟨token, fault⟩)

/-- Reads a token of the form of `kind`, or stops (`consume`). -/
def expect (kind : TokenKind) (what : Wanted) : Parser Token := do
  match ← accept kind with
  | some t => return t
  | none => fail (.wanted what)

/-- Reads a name, or stops. -/
def expectName (what : Wanted) : Parser Name := do
  let t ← expect .identifier what
  return ⟨t.lexeme, t.line⟩

/-- Is the next token of the form of `kind` (`check`)?  The end of the source is of no form. -/
def isNext (kind : TokenKind) : Parser Bool := fun c =>
  .ok (c.rest.head?.any fun t => t.kind.sameForm kind) c

/-- Is the end of the source reached (`is_at_end`)? -/
def isAtEnd : Parser Bool := fun c =>
  .ok c.rest.isEmpty c

/-- A number for a new reference (`fresh_id`). -/
def freshId : Parser Nat := fun c =>
  .ok c.nextId { c with nextId := c.nextId + 1 }

/-! ### Lists -/

/-- A list that may be empty, in front of a token of the form of `kind`. -/
def listBefore {α : Type} (kind : TokenKind) (items : Parser (List α)) : Parser (List α) := do
  if ← isNext kind then return [] else items

/-- Notes an item that is one too many, if `count` came before it. -/
def noteExcess (count : Nat) (fault : SyntaxFault) : Parser PUnit := do
  if maxArity ≤ count then note (← peek) fault else return ⟨⟩

/-! ### Operators -/

/-- The levels of binding, from the loosest to the tightest. -/
inductive Level where
  | or
  | and
  | equality
  | comparison
  | term
  | factor
deriving DecidableEq, Repr

/-- All levels, the loosest first. -/
def Level.all : List Level :=
  [.or, .and, .equality, .comparison, .term, .factor]

/-- How a token joins two operands on a level, if it is an operator of that level. -/
def Level.join? (level : Level) (t : Token) : Option (Expr → Expr → Expr) :=
  match level, t.kind with
  | .or, .kwOr => some (.logical .or t.line)
  | .and, .kwAnd => some (.logical .and t.line)
  | .equality, .bangEqual => some (.binary .notEqual t.line)
  | .equality, .equalEqual => some (.binary .equal t.line)
  | .comparison, .greater => some (.binary .greater t.line)
  | .comparison, .greaterEqual => some (.binary .greaterEqual t.line)
  | .comparison, .less => some (.binary .less t.line)
  | .comparison, .lessEqual => some (.binary .lessEqual t.line)
  | .term, .minus => some (.binary .subtract t.line)
  | .term, .plus => some (.binary .add t.line)
  | .factor, .star => some (.binary .multiply t.line)
  | .factor, .slash => some (.binary .divide t.line)
  | _, _ => none

/-- Reads an operator of a level if one is next. -/
def acceptJoin (level : Level) : Parser (Option (Expr → Expr → Expr)) := fun c =>
  match c.rest with
  | t :: rest =>
    match level.join? t with
    | some join => .ok (some join) { c with rest }
    | none => .ok none c
  | [] => .ok none c

/-! ### Expressions -/

mutual

/-- An assignment, or an expression of the loosest level (`assignment`). -/
def expression : (steps : Nat) → Parser Expr
  | 0 => fail .outOfSteps
  | steps + 1 => do
    let target ← joined steps Level.all
    match ← accept .equal with
    | none => return target
    | some sign =>
      let value ← expression steps
      match target with
      | .variable name _ => return .assign name (← freshId) value
      | .get object name => return .set object name value
      | _ =>
        note sign .invalidAssignmentTarget
        return target

/-- An expression that joins operands on the first of the levels or a tighter one (`logical_or`,
    `logical_and`, `equality`, `comparison`, `term` and `factor`). -/
def joined : (steps : Nat) → List Level → Parser Expr
  | 0, _ => fail .outOfSteps
  | steps + 1, [] => unary steps
  | steps + 1, level :: tighter => do
    joinedFrom steps level tighter (← joined steps tighter)

/-- Goes on with the operators of one level after its left operand (`binary_level`). -/
def joinedFrom : (steps : Nat) → Level → List Level → (left : Expr) → Parser Expr
  | 0, _, _, _ => fail .outOfSteps
  | steps + 1, level, tighter, left => do
    match ← acceptJoin level with
    | none => return left
    | some join => joinedFrom steps level tighter (join left (← joined steps tighter))

/-- Operators in front of an operand (`unary`). -/
def unary : (steps : Nat) → Parser Expr
  | 0 => fail .outOfSteps
  | steps + 1 => do
    match ← accept .bang with
    | some t => return .unary .not t.line (← unary steps)
    | none =>
      match ← accept .minus with
      | some t => return .unary .negate t.line (← unary steps)
      | none => calls steps (← primary steps)

/-- Goes on with calls and property accesses after an operand (`call`). -/
def calls : (steps : Nat) → (left : Expr) → Parser Expr
  | 0, _ => fail .outOfSteps
  | steps + 1, left => do
    match ← accept .leftParen with
    | some _ =>
      let args ← listBefore .rightParen (arguments steps 0)
      let paren ← expect .rightParen .argumentsClosing
      calls steps (.call left paren.line args)
    | none =>
      match ← accept .dot with
      | some _ => calls steps (.get left (← expectName .propertyName))
      | none => return left

/-- One or more arguments, of which `count` were read before (`finish_call`). -/
def arguments : (steps : Nat) → (count : Nat) → Parser (List Expr)
  | 0, _ => fail .outOfSteps
  | steps + 1, count => do
    noteExcess count .tooManyArguments
    let argument ← expression steps
    match ← accept .comma with
    | some _ => return argument :: (← arguments steps (count + 1))
    | none => return [argument]

/-- Constants, names, `this`, `super` and parentheses (`primary`). -/
def primary : (steps : Nat) → Parser Expr
  | 0 => fail .outOfSteps
  | steps + 1 => do
    let t ← peek
    match t.kind with
    | .kwFalse => skip; return .literal .false
    | .kwTrue => skip; return .literal .true
    | .kwNil => skip; return .literal .nil
    | .number value => skip; return .literal (.number value)
    | .string value => skip; return .literal (.string value)
    | .kwSuper =>
      skip
      let _ ← expect .dot .superDot
      let method ← expectName .superMethodName
      return .super t.line (← freshId) method
    | .kwThis => skip; return .this t.line (← freshId)
    | .identifier => skip; return .variable ⟨t.lexeme, t.line⟩ (← freshId)
    | .leftParen =>
      skip
      let inner ← expression steps
      let _ ← expect .rightParen .groupingClosing
      return .grouping inner
    | _ => fail (.wanted .expression)

end

/-! ### Recovery -/

/-- Does a token of this kind start a statement or declaration? -/
def startsStatement (kind : TokenKind) : Bool :=
  match kind with
  | .kwClass | .kwFun | .kwVar | .kwFor | .kwIf | .kwWhile | .kwPrint | .kwReturn => true
  | _ => false

/-- The tokens from the next statement boundary on, when `last` was the last token skipped: a
    boundary lies behind a semicolon and in front of a token that starts a statement. -/
def boundary (last : Token) : List Token → List Token
  | [] => []
  | t :: rest =>
    if last.kind.sameForm .semicolon || startsStatement t.kind then t :: rest
    else boundary t rest

/-- The tokens with which parsing goes on after an error at the first of them (`synchronize`).
    That token is always skipped. -/
def resume : List Token → List Token
  | [] => []
  | t :: rest => boundary t rest

/-- Runs a parser; if it stops, notes the error and skips to a statement boundary.  Around
    `declaration` below, this is the `declaration` of the source. -/
def recovering {α : Type} (p : Parser α) : Parser (Option α) := fun c =>
  match p c with
  | .ok result c => .ok (some result) c
  | .error e c => .ok none { c.note e with rest := resume c.rest }

/-! ### Statements and declarations -/

/-- One or more parameters, of which `count` were read before. -/
def parameters : (steps : Nat) → (count : Nat) → Parser (List Name)
  | 0, _ => fail .outOfSteps
  | steps + 1, count => do
    noteExcess count .tooManyParameters
    let name ← expectName .parameterName
    match ← accept .comma with
    | some _ => return name :: (← parameters steps (count + 1))
    | none => return [name]

/-- An optional expression in front of a token of the form of `kind`. -/
def expressionBefore (steps : Nat) (kind : TokenKind) : Parser (Option Expr) := do
  if ← isNext kind then return none else return some (← expression steps)

/-- The initializer of a variable, which may be missing. -/
def initializer (steps : Nat) : Parser (Option Expr) := do
  match ← accept .equal with
  | some _ => return some (← expression steps)
  | none => return none

/-- The rest of a variable declaration (`var_declaration`). -/
def varDeclaration (steps : Nat) : Parser Stmt := do
  let name ← expectName .variableName
  let initializer ← initializer steps
  let _ ← expect .semicolon .variableEnd
  return .var name initializer

/-- An expression as a statement (`expression_statement`). -/
def expressionStatement (steps : Nat) : Parser Stmt := do
  let value ← expression steps
  let _ ← expect .semicolon .expressionEnd
  return .expression value

/-- The rest of a `print` statement (`print_statement`). -/
def printStatement (steps : Nat) : Parser Stmt := do
  let value ← expression steps
  let _ ← expect .semicolon .printEnd
  return .print value

/-- The rest of a `return` statement whose keyword stands on `line` (`return_statement`). -/
def returnStatement (steps : Nat) (line : Nat) : Parser Stmt := do
  let value ← expressionBefore steps .semicolon
  let _ ← expect .semicolon .returnEnd
  return .return line value

/-- The first clause of a `for` statement. -/
def forInitializer (steps : Nat) : Parser (Option Stmt) := do
  match ← accept .semicolon with
  | some _ => return none
  | none =>
    match ← accept .kwVar with
    | some _ => return some (← varDeclaration steps)
    | none => return some (← expressionStatement steps)

/-- The loop that a `for` statement stands for, which `for_statement` makes of its clauses.  The
    increment runs after the body, in a block with it; the initializer runs once, in a block
    around the loop. -/
def forLoop (initializer : Option Stmt) (condition increment : Option Expr) (body : Stmt) :
    Stmt :=
  let body :=
    match increment with
    | some increment => .block [body, .expression increment]
    | none => body
  let loop := .whileLoop (condition.getD (.literal .true)) body
  match initializer with
  | some initializer => .block [initializer, loop]
  | none => loop

/-- The superclass of a class, which may be missing. -/
def superclassClause : Parser (Option Reference) := do
  match ← accept .less with
  | some _ => return some ⟨← expectName .superclassName, ← freshId⟩
  | none => return none

mutual

/-- A declaration or statement. -/
def declaration : (steps : Nat) → Parser Stmt
  | 0 => fail .outOfSteps
  | steps + 1 => do
    match ← accept .kwClass with
    | some _ => classDeclaration steps
    | none =>
      match ← accept .kwFun with
      | some _ => return .function (← function steps .function)
      | none =>
        match ← accept .kwVar with
        | some _ => varDeclaration steps
        | none => statement steps

/-- The rest of a class declaration (`class_declaration`). -/
def classDeclaration : (steps : Nat) → Parser Stmt
  | 0 => fail .outOfSteps
  | steps + 1 => do
    let name ← expectName .className
    let superclass ← superclassClause
    let _ ← expect .leftBrace .classOpening
    let decls ← methods steps
    let _ ← expect .rightBrace .classClosing
    return .class name superclass decls

/-- The methods of a class, up to the brace that closes it. -/
def methods : (steps : Nat) → Parser (List FunctionDecl)
  | 0 => fail .outOfSteps
  | steps + 1 => do
    if (← isNext .rightBrace) || (← isAtEnd) then
      return []
    else
      let method ← function steps .method
      return method :: (← methods steps)

/-- A function or method from its name on (`function`). -/
def function : (steps : Nat) → FunctionForm → Parser FunctionDecl
  | 0, _ => fail .outOfSteps
  | steps + 1, form => do
    let name ← expectName (.functionName form)
    let _ ← expect .leftParen (.functionParen form)
    let params ← listBefore .rightParen (parameters steps 0)
    let _ ← expect .rightParen .parametersClosing
    let _ ← expect .leftBrace (.functionOpening form)
    let body ← block steps
    return ⟨name, params, body⟩

/-- The statements of a block after its opening brace (`block`). -/
def block : (steps : Nat) → Parser (List Stmt)
  | 0 => fail .outOfSteps
  | steps + 1 => do
    let body ← declarations steps true
    let _ ← expect .rightBrace .blockClosing
    return body

/-- Declarations up to the end of the source, inside a block up to its closing brace.  Those
    that break are left out. -/
def declarations : (steps : Nat) → (inBlock : Bool) → Parser (List Stmt)
  | 0, _ => fail .outOfSteps
  | steps + 1, inBlock => do
    if (inBlock && (← isNext .rightBrace)) || (← isAtEnd) then
      return []
    else
      let first ← recovering (declaration steps)
      let others ← declarations steps inBlock
      return first.toList ++ others

/-- A statement (`statement`). -/
def statement : (steps : Nat) → Parser Stmt
  | 0 => fail .outOfSteps
  | steps + 1 => do
    let t ← peek
    match t.kind with
    | .kwFor => skip; forStatement steps
    | .kwIf => skip; ifStatement steps
    | .kwPrint => skip; printStatement steps
    | .kwReturn => skip; returnStatement steps t.line
    | .kwWhile => skip; whileStatement steps
    | .leftBrace => skip; return .block (← block steps)
    | _ => expressionStatement steps

/-- The rest of a `for` statement (`for_statement`). -/
def forStatement : (steps : Nat) → Parser Stmt
  | 0 => fail .outOfSteps
  | steps + 1 => do
    let _ ← expect .leftParen .forParen
    let initializer ← forInitializer steps
    let condition ← expressionBefore steps .semicolon
    let _ ← expect .semicolon .loopConditionEnd
    let increment ← expressionBefore steps .rightParen
    let _ ← expect .rightParen .forClosing
    return forLoop initializer condition increment (← statement steps)

/-- The rest of an `if` statement (`if_statement`).  An `else` belongs to the nearest `if`. -/
def ifStatement : (steps : Nat) → Parser Stmt
  | 0 => fail .outOfSteps
  | steps + 1 => do
    let _ ← expect .leftParen .ifParen
    let condition ← expression steps
    let _ ← expect .rightParen .ifClosing
    let thenBranch ← statement steps
    match ← accept .kwElse with
    | some _ => return .ifElse condition thenBranch (some (← statement steps))
    | none => return .ifElse condition thenBranch none

/-- The rest of a `while` statement (`while_statement`). -/
def whileStatement : (steps : Nat) → Parser Stmt
  | 0 => fail .outOfSteps
  | steps + 1 => do
    let _ ← expect .leftParen .whileParen
    let condition ← expression steps
    let _ ← expect .rightParen .whileClosing
    return .whileLoop condition (← statement steps)

end

/-- An expression that ends where the source ends (`parse_expression`). -/
def wholeExpression (steps : Nat) : Parser Expr := do
  let value ← expression steps
  if ← isAtEnd then return value else fail (.wanted .endOfExpression)

end Parser

/-! ### Whole sources -/

namespace Cursor

/-- What a run of a parser leaves: its result if it was not stopped, the errors it noted with
    the one that stopped it last, and the cursor behind it. -/
def run {α : Type} (c : Cursor) (p : Parser α) : Option α × List SyntaxError × Cursor :=
  match p { c with errors := [] } with
  | .ok result c => (some result, c.errors, { c with errors := [] })
  | .error e c => (none, c.errors ++ [e], { c with errors := [] })

/-- Reads a program up to the end of the source (`parse`).  Declarations that break are left out
    of it, and their errors reported. -/
def program (c : Cursor) : Program × List SyntaxError × Cursor :=
  let (statements, errors, c) := c.run (Parser.declarations c.steps false)
  (statements.getD [], errors, c)

/-- Reads a single expression up to the end of the source. -/
def expression (c : Cursor) : Option Expr × List SyntaxError × Cursor :=
  c.run (Parser.wholeExpression c.steps)

end Cursor

end Treewalk
