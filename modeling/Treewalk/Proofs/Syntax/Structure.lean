import Treewalk.Proofs.Syntax.Comparing
import Treewalk.Proofs.Syntax.Names
import Treewalk.Proofs.Syntax.Nesting

/-!
# The structure of a printed expression

**From the printed form of an expression one can tell how it is built, but for what its words are.**
A word may be a constant, a name or `this`; lines and numbers of references are not printed at all.
Strings are printed as they are, without quotes.  So a string with a blank in it, or with parentheses
that do not match, may look like several words or like an operator with its operands; one without
them looks like a single word.
-/

namespace Treewalk

/-! ### What is printed -/

mutual

/-- The expression without lines and numbers, and with every word taken as a name. -/
def Expr.bare : Expr → Expr
  | .literal value => .variable ⟨value.text, 0⟩ 0
  | .grouping inner => .grouping inner.bare
  | .unary op _ operand => .unary op 0 operand.bare
  | .binary op _ left right => .binary op 0 left.bare right.bare
  | .logical op _ left right => .logical op 0 left.bare right.bare
  | .variable name _ => .variable ⟨name.text, 0⟩ 0
  | .assign name _ value => .assign ⟨name.text, 0⟩ 0 value.bare
  | .call callee _ args => .call callee.bare 0 (bareArguments args)
  | .get object name => .get object.bare ⟨name.text, 0⟩
  | .set object name value => .set object.bare ⟨name.text, 0⟩ value.bare
  | .this _ _ => .variable ⟨"this", 0⟩ 0
  | .super _ _ method => .super 0 0 ⟨method.text, 0⟩

@[inherit_doc Expr.bare]
def bareArguments : List Expr → List Expr
  | [] => []
  | argument :: args => argument.bare :: bareArguments args

end

mutual

theorem Expr.printed_bare : ∀ e : Expr, e.bare.printed = e.printed
  | .literal _ => rfl
  | .grouping inner => by rw [Expr.bare, Expr.printed, Expr.printed, inner.printed_bare]
  | .unary _ _ operand => by rw [Expr.bare, Expr.printed, Expr.printed, operand.printed_bare]
  | .binary _ _ left right => by
    rw [Expr.bare, Expr.printed, Expr.printed, left.printed_bare, right.printed_bare]
  | .logical _ _ left right => by
    rw [Expr.bare, Expr.printed, Expr.printed, left.printed_bare, right.printed_bare]
  | .variable _ _ => rfl
  | .assign _ _ value => by rw [Expr.bare, Expr.printed, Expr.printed, value.printed_bare]
  | .call callee _ args => by
    rw [Expr.bare, Expr.printed, Expr.printed, callee.printed_bare, printedArguments_bare args]
  | .get object _ => by rw [Expr.bare, Expr.printed, Expr.printed, object.printed_bare]
  | .set object _ value => by
    rw [Expr.bare, Expr.printed, Expr.printed, object.printed_bare, value.printed_bare]
  | .this _ _ => rfl
  | .super _ _ _ => rfl

theorem printedArguments_bare : ∀ args : List Expr,
    printedArguments (bareArguments args) = printedArguments args
  | [] => rfl
  | argument :: args => by
    rw [bareArguments, printedArguments, printedArguments, argument.printed_bare,
      printedArguments_bare args]

end

/-! ### Expressions as nested texts -/

mutual

/-- The nested text that is printed. -/
def Expr.nested : Expr → Nested
  | .literal value => .word value.text
  | .grouping inner => .list "group" [inner.nested]
  | .unary op _ operand => .list op.symbol [operand.nested]
  | .binary op _ left right => .list op.symbol [left.nested, right.nested]
  | .logical op _ left right => .list op.symbol [left.nested, right.nested]
  | .variable name _ => .word name.text
  | .assign name _ value => .list "=" [.word name.text, value.nested]
  | .call callee _ args => .list "call" (callee.nested :: nestedArguments args)
  | .get object name => .list "." [object.nested, .word name.text]
  | .set object name value => .list "=" [.list "." [object.nested, .word name.text], value.nested]
  | .this _ _ => .word "this"
  | .super _ _ method => .list "super" [.word method.text]

@[inherit_doc Expr.nested]
def nestedArguments : List Expr → List Nested
  | [] => []
  | argument :: args => argument.nested :: nestedArguments args

end

mutual

theorem Expr.toList_printed : ∀ e : Expr, e.printed.toList = e.nested.chars
  | .literal _ => rfl
  | .grouping inner => by
    simp [Expr.printed, Expr.nested, Nested.chars, partChars, inner.toList_printed]
  | .unary _ _ operand => by
    simp [Expr.printed, Expr.nested, Nested.chars, partChars, operand.toList_printed]
  | .binary _ _ left right => by
    simp [Expr.printed, Expr.nested, Nested.chars, partChars, left.toList_printed,
      right.toList_printed]
  | .logical _ _ left right => by
    simp [Expr.printed, Expr.nested, Nested.chars, partChars, left.toList_printed,
      right.toList_printed]
  | .variable _ _ => rfl
  | .assign _ _ value => by
    simp [Expr.printed, Expr.nested, Nested.chars, partChars, value.toList_printed]
  | .call callee _ args => by
    simp [Expr.printed, Expr.nested, Nested.chars, partChars, callee.toList_printed,
      toList_printedArguments args]
  | .get object _ => by
    simp [Expr.printed, Expr.nested, Nested.chars, partChars, object.toList_printed]
  | .set object _ value => by
    simp [Expr.printed, Expr.nested, Nested.chars, partChars, object.toList_printed,
      value.toList_printed]
  | .this _ _ => rfl
  | .super _ _ _ => by
    simp [Expr.printed, Expr.nested, Nested.chars, partChars]

theorem toList_printedArguments : ∀ args : List Expr,
    (printedArguments args).toList = partChars (nestedArguments args)
  | [] => rfl
  | argument :: args => by
    simp [printedArguments, nestedArguments, partChars, argument.toList_printed,
      toList_printedArguments args]

end

/-! ### Expressions from nested texts -/

/-- The expression with this head and these parts. -/
def ofHead : String → List Expr → Expr
  | "group", [inner] => .grouping inner
  | "!", [operand] => .unary .not 0 operand
  | "-", [operand] => .unary .negate 0 operand
  | "+", [left, right] => .binary .add 0 left right
  | "-", [left, right] => .binary .subtract 0 left right
  | "*", [left, right] => .binary .multiply 0 left right
  | "/", [left, right] => .binary .divide 0 left right
  | "<", [left, right] => .binary .less 0 left right
  | "<=", [left, right] => .binary .lessEqual 0 left right
  | ">", [left, right] => .binary .greater 0 left right
  | ">=", [left, right] => .binary .greaterEqual 0 left right
  | "==", [left, right] => .binary .equal 0 left right
  | "!=", [left, right] => .binary .notEqual 0 left right
  | "and", [left, right] => .logical .and 0 left right
  | "or", [left, right] => .logical .or 0 left right
  | "=", [.variable name _, value] => .assign name 0 value
  | "=", [.get object name, value] => .set object name value
  | "call", callee :: args => .call callee 0 args
  | ".", [object, .variable name _] => .get object name
  | "super", [.variable method _] => .super 0 0 method
  | _, _ => .literal .nil

theorem ofHead_unary (op : UnaryOp) (operand : Expr) :
    ofHead op.symbol [operand] = .unary op 0 operand := by
  cases op <;> rfl

theorem ofHead_binary (op : BinaryOp) (left right : Expr) :
    ofHead op.symbol [left, right] = .binary op 0 left right := by
  cases op <;> rfl

theorem ofHead_logical (op : LogicalOp) (left right : Expr) :
    ofHead op.symbol [left, right] = .logical op 0 left right := by
  cases op <;> rfl

mutual

/-- The expression that is written as this nested text. -/
def Nested.bare : Nested → Expr
  | .word text => .variable ⟨text, 0⟩ 0
  | .list head parts => ofHead head (bareParts parts)

@[inherit_doc Nested.bare]
def bareParts : List Nested → List Expr
  | [] => []
  | part :: parts => part.bare :: bareParts parts

end

mutual

/-- Nothing but the kind of words, lines and numbers is lost in the nested text. -/
theorem Expr.bare_nested : ∀ e : Expr, e.nested.bare = e.bare
  | .literal _ => rfl
  | .grouping inner => by
    rw [Expr.nested, Nested.bare, bareParts, bareParts, inner.bare_nested]
    rfl
  | .unary op _ operand => by
    rw [Expr.nested, Nested.bare, bareParts, bareParts, operand.bare_nested, ofHead_unary]
    rfl
  | .binary op _ left right => by
    rw [Expr.nested, Nested.bare, bareParts, bareParts, bareParts, left.bare_nested,
      right.bare_nested, ofHead_binary]
    rfl
  | .logical op _ left right => by
    rw [Expr.nested, Nested.bare, bareParts, bareParts, bareParts, left.bare_nested,
      right.bare_nested, ofHead_logical]
    rfl
  | .variable _ _ => rfl
  | .assign _ _ value => by
    rw [Expr.nested, Nested.bare, bareParts, bareParts, bareParts, value.bare_nested]
    rfl
  | .call callee _ args => by
    rw [Expr.nested, Nested.bare, bareParts, callee.bare_nested, bareParts_nested args]
    rfl
  | .get object _ => by
    rw [Expr.nested, Nested.bare, bareParts, bareParts, bareParts, object.bare_nested]
    rfl
  | .set object _ value => by
    rw [Expr.nested, Nested.bare, bareParts, bareParts, bareParts, value.bare_nested, Nested.bare,
      bareParts, bareParts, bareParts, object.bare_nested]
    rfl
  | .this _ _ => rfl
  | .super _ _ _ => rfl

theorem bareParts_nested : ∀ args : List Expr,
    bareParts (nestedArguments args) = bareArguments args
  | [] => rfl
  | argument :: args => by
    rw [nestedArguments, bareParts, bareArguments, argument.bare_nested, bareParts_nested args]

end

/-! ### Tidy expressions -/

mutual

/-- The texts of all strings in an expression. -/
def Expr.strings : Expr → List String
  | .literal (.string text) => [text]
  | .literal _ => []
  | .grouping inner => inner.strings
  | .unary _ _ operand => operand.strings
  | .binary _ _ left right => left.strings ++ right.strings
  | .logical _ _ left right => left.strings ++ right.strings
  | .variable _ _ => []
  | .assign _ _ value => value.strings
  | .call callee _ args => callee.strings ++ argumentStrings args
  | .get object _ => object.strings
  | .set object _ value => object.strings ++ value.strings
  | .this _ _ => []
  | .super _ _ _ => []

@[inherit_doc Expr.strings]
def argumentStrings : List Expr → List String
  | [] => []
  | argument :: args => argument.strings ++ argumentStrings args

end

/-- The character is no blank and no parenthesis. -/
def isPlain (c : Char) : Bool :=
  c ≠ ' ' ∧ c ≠ '(' ∧ c ≠ ')'

theorem isTidyFrom_of_plain {cs : List Char} (h : ∀ c ∈ cs, isPlain c = true) :
    isTidyFrom 0 cs = true := by
  induction cs with
  | nil => rfl
  | cons c cs ih =>
    have hc : c ≠ ' ' ∧ c ≠ '(' ∧ c ≠ ')' := of_decide_eq_true (h c List.mem_cons_self)
    refine isTidyFrom_cons_iff.mpr ⟨0, ?_, ih fun d hd => h d (List.mem_cons_of_mem _ hd)⟩
    rw [depthBehind?, if_neg hc.2.1, if_neg hc.2.2, if_neg hc.1]

/-- A class of characters without blanks and parentheses. -/
theorem isPlain_of_class {p : Char → Bool} (hblank : p ' ' = false) (hopening : p '(' = false)
    (hclosing : p ')' = false) {c : Char} (hc : p c = true) : isPlain c = true := by
  apply decide_eq_true
  refine ⟨?_, ?_, ?_⟩ <;> rintro rfl <;> simp_all

theorem isTidy_of_word {text : String} (h : ∀ c ∈ text.toList, Lexer.isWordChar c = true) :
    IsTidy text :=
  isTidyFrom_of_plain fun c hc => isPlain_of_class (by decide) (by decide) (by decide) (h c hc)

theorem isPlain_of_isDigit {c : Char} (h : c.isDigit = true) : isPlain c = true :=
  isPlain_of_class (p := Char.isDigit) (by decide) (by decide) (by decide) h

theorem isPlain_of_mem_toDigits {n : Nat} {c : Char} (h : c ∈ Nat.toDigits 10 n) :
    isPlain c = true :=
  isPlain_of_isDigit (Nat.isDigit_of_mem_toDigits (by decide) (by decide) h)

theorem isPlain_of_mem_positional {d : Decimal} {c : Char} (h : c ∈ d.positional) :
    isPlain c = true := by
  have hzeros : ∀ n : Nat, c ∈ List.replicate n '0' → isPlain c = true := by
    intro n hc
    rw [List.eq_of_mem_replicate hc]
    decide
  unfold Decimal.positional at h
  dsimp only at h
  split at h
  · rcases List.mem_append.mp h with h | h
    · exact isPlain_of_mem_toDigits h
    · exact hzeros _ h
  · split at h
    · rcases List.mem_append.mp h with h | h
      · exact isPlain_of_mem_toDigits (List.mem_of_mem_take h)
      · rcases List.mem_cons.mp h with rfl | h
        · decide
        · exact isPlain_of_mem_toDigits (List.mem_of_mem_drop h)
    · rcases List.mem_cons.mp h with rfl | h
      · decide
      · rcases List.mem_cons.mp h with rfl | h
        · decide
        · rcases List.mem_append.mp h with h | h
          · exact hzeros _ h
          · exact isPlain_of_mem_toDigits h

theorem isTidy_signed {negative : Bool} {digits : List Char}
    (h : ∀ c ∈ digits, isPlain c = true) : IsTidy (Decimal.signed negative digits) := by
  unfold Decimal.signed IsTidy
  rw [String.toList_ofList]
  apply isTidyFrom_of_plain
  cases negative with
  | false => exact h
  | true => exact List.forall_mem_cons.mpr ⟨by decide, h⟩

theorem isTidy_literalText (x : Float) : IsTidy (Decimal.literalText x) := by
  have hinfinity : "inf".toList.all isPlain = true := by decide
  have hfraction : ".0".toList.all isPlain = true := by decide
  unfold Decimal.literalText Decimal.named
  split
  · decide
  · exact isTidy_signed (List.all_eq_true.mp hinfinity)
  · rename_i negative magnitude _
    dsimp only
    split
    · refine isTidy_signed fun c hc => ?_
      rcases List.mem_append.mp hc with hc | hc
      · exact isPlain_of_mem_toDigits hc
      · exact List.all_eq_true.mp hfraction c hc
    · exact isTidy_signed fun c hc => isPlain_of_mem_positional hc

theorem Literal.isTidy_text (value : Literal) (h : ∀ text, value = .string text → IsTidy text) :
    IsTidy value.text := by
  cases value with
  | number x => exact isTidy_literalText x
  | string text => exact h text rfl
  | true => decide
  | false => decide
  | nil => decide

theorem UnaryOp.isTidy_symbol (op : UnaryOp) : IsTidy op.symbol := by
  cases op <;> decide

theorem BinaryOp.isTidy_symbol (op : BinaryOp) : IsTidy op.symbol := by
  cases op <;> decide

theorem LogicalOp.isTidy_symbol (op : LogicalOp) : IsTidy op.symbol := by
  cases op <;> decide

theorem Nested.tidy_single {head : String} {x : Nested} (hhead : IsTidy head) (hx : x.Tidy) :
    (Nested.list head [x]).Tidy := by
  simp only [Nested.Tidy, TidyParts]
  exact ⟨hhead, List.cons_ne_nil _ _, hx, trivial⟩

theorem Nested.tidy_pair {head : String} {x y : Nested} (hhead : IsTidy head) (hx : x.Tidy)
    (hy : y.Tidy) : (Nested.list head [x, y]).Tidy := by
  simp only [Nested.Tidy, TidyParts]
  exact ⟨hhead, List.cons_ne_nil _ _, hx, hy, trivial⟩

theorem Nested.tidy_word {text : String} (h : IsTidy text) : (Nested.word text).Tidy := by
  rw [Nested.Tidy]
  exact h

mutual

/-- An expression with tidy names and strings is printed with tidy words. -/
theorem Expr.tidy_nested : ∀ e : Expr, (∀ text ∈ e.names, IsTidy text) →
    (∀ text ∈ e.strings, IsTidy text) → e.nested.Tidy
  | .literal value, _, hstrings => by
    refine Nested.tidy_word (value.isTidy_text fun text htext => hstrings text ?_)
    subst htext
    exact List.mem_singleton_self text
  | .grouping inner, hnames, hstrings =>
    Nested.tidy_single (by decide) (inner.tidy_nested hnames hstrings)
  | .unary op _ operand, hnames, hstrings =>
    Nested.tidy_single op.isTidy_symbol (operand.tidy_nested hnames hstrings)
  | .binary op _ left right, hnames, hstrings => by
    obtain ⟨hleft, hright⟩ := List.forall_mem_append.mp hnames
    obtain ⟨hleft', hright'⟩ := List.forall_mem_append.mp hstrings
    exact Nested.tidy_pair op.isTidy_symbol (left.tidy_nested hleft hleft')
      (right.tidy_nested hright hright')
  | .logical op _ left right, hnames, hstrings => by
    obtain ⟨hleft, hright⟩ := List.forall_mem_append.mp hnames
    obtain ⟨hleft', hright'⟩ := List.forall_mem_append.mp hstrings
    exact Nested.tidy_pair op.isTidy_symbol (left.tidy_nested hleft hleft')
      (right.tidy_nested hright hright')
  | .variable name _, hnames, _ =>
    Nested.tidy_word (hnames name.text (List.mem_singleton_self name.text))
  | .assign name _ value, hnames, hstrings => by
    obtain ⟨hname, hvalue⟩ := List.forall_mem_cons.mp hnames
    exact Nested.tidy_pair (by decide) (Nested.tidy_word hname) (value.tidy_nested hvalue hstrings)
  | .call callee _ args, hnames, hstrings => by
    obtain ⟨hcallee, hargs⟩ := List.forall_mem_append.mp hnames
    obtain ⟨hcallee', hargs'⟩ := List.forall_mem_append.mp hstrings
    rw [Expr.nested]
    simp only [Nested.Tidy, TidyParts]
    exact ⟨by decide, List.cons_ne_nil _ _, callee.tidy_nested hcallee hcallee',
      tidyParts_nested args hargs hargs'⟩
  | .get object name, hnames, hstrings => by
    obtain ⟨hobject, hname⟩ := List.forall_mem_append.mp hnames
    exact Nested.tidy_pair (by decide) (object.tidy_nested hobject hstrings)
      (Nested.tidy_word (hname name.text (List.mem_singleton_self name.text)))
  | .set object name value, hnames, hstrings => by
    obtain ⟨hobject, hrest⟩ := List.forall_mem_append.mp hnames
    obtain ⟨hname, hvalue⟩ := List.forall_mem_cons.mp hrest
    obtain ⟨hobject', hvalue'⟩ := List.forall_mem_append.mp hstrings
    exact Nested.tidy_pair (by decide)
      (Nested.tidy_pair (by decide) (object.tidy_nested hobject hobject') (Nested.tidy_word hname))
      (value.tidy_nested hvalue hvalue')
  | .this _ _, _, _ => Nested.tidy_word (by decide)
  | .super _ _ method, hnames, _ =>
    Nested.tidy_single (by decide)
      (Nested.tidy_word (hnames method.text (List.mem_singleton_self method.text)))

theorem tidyParts_nested : ∀ args : List Expr, (∀ text ∈ argumentNames args, IsTidy text) →
    (∀ text ∈ argumentStrings args, IsTidy text) → TidyParts (nestedArguments args)
  | [], _, _ => trivial
  | argument :: args, hnames, hstrings => by
    obtain ⟨hfirst, hrest⟩ := List.forall_mem_append.mp hnames
    obtain ⟨hfirst', hrest'⟩ := List.forall_mem_append.mp hstrings
    exact ⟨argument.tidy_nested hfirst hfirst', tidyParts_nested args hrest hrest'⟩

end

/-! ### Reading the structure off -/

/-- Two expressions with tidy words are printed alike just if they have the same structure. -/
theorem Expr.printed_eq_iff_of_tidy {e other : Expr} (he : e.nested.Tidy)
    (hother : other.nested.Tidy) : e.printed = other.printed ↔ e.bare = other.bare := by
  constructor
  · intro h
    have hchars : e.nested.chars ++ [] = other.nested.chars ++ [] := by
      rw [← e.toList_printed, ← other.toList_printed, h]
    obtain ⟨hsame, -⟩ := Nested.unique _ _ he hother stops_nil stops_nil hchars
    rw [← e.bare_nested, ← other.bare_nested, hsame]
  · intro h
    rw [← e.printed_bare, ← other.printed_bare, h]

/-- **The printed form shows the structure.**  Two expressions that are read from sources, and whose
    strings have no blank and no parenthesis without its match, are printed alike just if they are
    built alike from operators, calls, accesses, groupings and words. -/
theorem printed_eq_iff {source source' : String} {first first' : Nat} {e e' : Expr}
    (h : (Cursor.start (tokens source) first).expression.1 = some e)
    (h' : (Cursor.start (tokens source') first').expression.1 = some e')
    (hstrings : ∀ text ∈ e.strings, IsTidy text) (hstrings' : ∀ text ∈ e'.strings, IsTidy text) :
    e.printed = e'.printed ↔ e.bare = e'.bare := by
  have hnames := Cursor.names_of_expression (Cursor.start_named source first) h
  have hnames' := Cursor.names_of_expression (Cursor.start_named source' first') h'
  exact Expr.printed_eq_iff_of_tidy
    (e.tidy_nested (fun text htext => isTidy_of_word (hnames text htext)) hstrings)
    (e'.tidy_nested (fun text htext => isTidy_of_word (hnames' text htext)) hstrings')

/-- Blanks and line feeds between words, and the kinds of words, make no difference. -/
theorem printed_eq_iff_call :
    ∃ e e', (Cursor.start (tokens "-a(\"(b)\")") 0).expression.1 = some e
      ∧ (Cursor.start (tokens "-\n\"a\" (\"(b)\")") 7).expression.1 = some e'
      ∧ e.printed = "(- (call a (b)))" ∧ e'.printed = e.printed ∧ e.bare = e'.bare := by
  let e : Expr := .unary .negate 1 (.call (.variable ⟨"a", 1⟩ 0) 1 [.literal (.string "(b)")])
  let e' : Expr := .unary .negate 1 (.call (.literal (.string "a")) 2 [.literal (.string "(b)")])
  have h : (Cursor.start (tokens "-a(\"(b)\")") 0).expression.1 = some e := by decide +kernel
  have h' : (Cursor.start (tokens "-\n\"a\" (\"(b)\")") 7).expression.1 = some e' := by decide +kernel
  exact ⟨e, e', h, h', by decide +kernel, by decide +kernel,
    (printed_eq_iff h h' (by decide) (by decide)).mp (by decide +kernel)⟩

/-- The source is this expression, and no error is noted. -/
def IsReadAs (source : String) (e : Expr) : Prop :=
  ∃ c, (Cursor.start (tokens source) 0).expression = (some e, [], c)

theorem isReadAs_of_eq {source : String} {e : Expr}
    (hfound : (Cursor.start (tokens source) 0).expression.1 = some e)
    (herrors : (Cursor.start (tokens source) 0).expression.2.1 = []) : IsReadAs source e :=
  ⟨_, Prod.ext hfound (Prod.ext herrors rfl)⟩

mutual

/-- The nested text with all words left out. -/
def Nested.outline : Nested → Nested
  | .word _ => .word ""
  | .list head parts => .list head (partOutlines parts)

@[inherit_doc Nested.outline]
def partOutlines : List Nested → List Nested
  | [] => []
  | part :: parts => part.outline :: partOutlines parts

end

/-- Strings that are not tidy are printed like operators: one with a blank like a whole negation, and
    two with single parentheses, subtracted, like a negation of a negation. -/
theorem printed_string_eq :
    (∃ e e', IsReadAs "\"(- a)\"" e ∧ IsReadAs "-a" e' ∧ e.printed = "(- a)"
      ∧ e'.printed = "(- a)" ∧ e.nested.outline ≠ e'.nested.outline)
    ∧ ∃ e e', IsReadAs "\"(-\" - \"a)\"" e ∧ IsReadAs "--a" e' ∧ e.printed = "(- (- a))"
      ∧ e'.printed = "(- (- a))" ∧ e.nested.outline ≠ e'.nested.outline := by
  let a : Expr := .variable ⟨"a", 1⟩ 0
  constructor
  · refine ⟨.literal (.string "(- a)"), .unary .negate 1 a,
      isReadAs_of_eq (by decide +kernel) (by decide +kernel),
      isReadAs_of_eq (by decide +kernel) (by decide +kernel),
      by decide +kernel, by decide +kernel, ?_⟩
    simp [Expr.nested, Nested.outline]
  · refine ⟨.binary .subtract 1 (.literal (.string "(-")) (.literal (.string "a)")),
      .unary .negate 1 (.unary .negate 1 a),
      isReadAs_of_eq (by decide +kernel) (by decide +kernel),
      isReadAs_of_eq (by decide +kernel) (by decide +kernel),
      by decide +kernel, by decide +kernel, ?_⟩
    simp [Expr.nested, Nested.outline, partOutlines]

end Treewalk
