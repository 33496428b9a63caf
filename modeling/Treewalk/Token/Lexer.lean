import Treewalk.Decimal.Rounding
import Treewalk.Diagnostic

/-!
# From source to tokens

**The source is cut into pieces from the left, and each piece is the longest that fits.**  A
piece is a token, a blank, a comment, a character that starts nothing, or a string that the end
of the source leaves open.  The pieces laid side by side are the source again.

Lines are counted in a second pass over the pieces: an item stands on the line that its piece
ends on.
-/

namespace Treewalk

/-! ### Errors -/

/-- Why a piece of source is no token. -/
inductive Malformed where
  | unexpectedCharacter (c : Char)
  | unterminatedString
deriving DecidableEq, Repr

/-- A lexical error. -/
structure LexicalError where
  line : Nat
  cause : Malformed
deriving DecidableEq, Repr

/-- What the error says. -/
def Malformed.message : Malformed → String
  | .unexpectedCharacter c => "Unexpected character: " ++ String.singleton c
  | .unterminatedString => "Unterminated string."

/-- The report of a lexical error. -/
def LexicalError.report (e : LexicalError) : Diagnostic :=
  .lexical e.line e.cause.message

namespace Lexer

/-! ### Classes of characters -/

/-- Blanks separate tokens; the line feed is one of them. -/
def isBlank (c : Char) : Bool :=
  c = ' ' || c = '\r' || c = '\t' || c = '\n'

/-- Digits are those of ASCII. -/
def isDigit (c : Char) : Bool :=
  decide ('0' ≤ c ∧ c ≤ '9')

/-- Letters are those of ASCII and the underscore. -/
def isLetter (c : Char) : Bool :=
  decide ('a' ≤ c ∧ c ≤ 'z') || decide ('A' ≤ c ∧ c ≤ 'Z') || c = '_'

/-- Words go on with letters and digits. -/
def isWordChar (c : Char) : Bool :=
  isLetter c || isDigit c

/-! ### Pieces -/

/-- A piece of the source. -/
inductive Piece where
  | token (kind : TokenKind) (lexeme : List Char)
  | blank (c : Char)
  | comment (text : List Char)
  | unexpected (c : Char)
  | openString (text : List Char)

/-- The source text of a piece. -/
def Piece.text : Piece → List Char
  | .token _ lexeme => lexeme
  | .blank c => [c]
  | .comment text => text
  | .unexpected c => [c]
  | .openString text => text

/-- The kind of a token that is the single character `c`. -/
def single? (c : Char) : Option TokenKind :=
  match c with
  | '(' => some .leftParen
  | ')' => some .rightParen
  | '{' => some .leftBrace
  | '}' => some .rightBrace
  | ',' => some .comma
  | '.' => some .dot
  | '-' => some .minus
  | '+' => some .plus
  | ';' => some .semicolon
  | '/' => some .slash
  | '*' => some .star
  | '!' => some .bang
  | '=' => some .equal
  | '<' => some .less
  | '>' => some .greater
  | _ => none

/-- The kind of a token that is `c` followed by an equals sign. -/
def withEqual? (c : Char) : Option TokenKind :=
  match c with
  | '!' => some .bangEqual
  | '=' => some .equalEqual
  | '<' => some .lessEqual
  | '>' => some .greaterEqual
  | _ => none

/-- A symbol at `c`: with the equals sign after it if the two form a token. -/
def symbol (c : Char) (rest : List Char) : Piece × List Char :=
  match withEqual? c, rest with
  | some kind, '=' :: rest => (.token kind [c, '='], rest)
  | _, _ =>
    match single? c with
    | some kind => (.token kind [c], rest)
    | none => (.unexpected c, rest)

/-- A string after its opening quote (`parse_string`). -/
def quoted (rest : List Char) : Piece × List Char :=
  let contents := rest.takeWhile (· != '"')
  match rest.dropWhile (· != '"') with
  | quote :: rest => (.token (.string (.ofList contents)) ('"' :: (contents ++ [quote])), rest)
  | [] => (.openString ('"' :: contents), [])

/-- A number that starts with digit `c` (`parse_number`).  A point belongs to it only if a digit
    follows. -/
def numeral (c : Char) (rest : List Char) : Piece × List Char :=
  let whole := c :: rest.takeWhile isDigit
  let after := rest.dropWhile isDigit
  let integer := (Piece.token (.number (Decimal.ofNumeral whole [])) whole, after)
  match after with
  | '.' :: d :: more =>
    if isDigit d then
      let fraction := d :: more.takeWhile isDigit
      (.token (.number (Decimal.ofNumeral whole fraction)) (whole ++ '.' :: fraction),
        more.dropWhile isDigit)
    else
      integer
  | _ => integer

/-- A name or reserved word that starts with letter `c` (`parse_identifier`). -/
def word (c : Char) (rest : List Char) : Piece × List Char :=
  let lexeme := c :: rest.takeWhile isWordChar
  (.token (.ofWord (.ofList lexeme)) lexeme, rest.dropWhile isWordChar)

/-- A slash: the start of a comment that runs up to the end of its line, or a symbol
    (`scan_token` at a slash). -/
def slash (rest : List Char) : Piece × List Char :=
  match rest with
  | '/' :: more =>
    (.comment ('/' :: '/' :: more.takeWhile (· != '\n')), more.dropWhile (· != '\n'))
  | _ => symbol '/' rest

/-- The first piece of a source that starts with `c`, and what follows it (`scan_token`). -/
def piece (c : Char) (rest : List Char) : Piece × List Char :=
  if isBlank c then (.blank c, rest)
  else if c = '/' then slash rest
  else if c = '"' then quoted rest
  else if isDigit c then numeral c rest
  else if isLetter c then word c rest
  else symbol c rest

/-! ### Nothing is lost, and every step gets on -/

theorem symbol_append (c : Char) (rest : List Char) :
    (symbol c rest).1.text ++ (symbol c rest).2 = c :: rest := by
  unfold symbol
  split
  · rfl
  · split <;> rfl

theorem quoted_append (rest : List Char) :
    (quoted rest).1.text ++ (quoted rest).2 = '"' :: rest := by
  have h := List.takeWhile_append_dropWhile (p := (· != '"')) (l := rest)
  unfold quoted
  split
  · rename_i heq
    rw [heq] at h
    simpa [Piece.text] using h
  · rename_i heq
    rw [heq] at h
    simpa [Piece.text] using h

theorem numeral_append (c : Char) (rest : List Char) :
    (numeral c rest).1.text ++ (numeral c rest).2 = c :: rest := by
  have h := List.takeWhile_append_dropWhile (p := isDigit) (l := rest)
  unfold numeral
  dsimp only
  split
  · rename_i d more heq
    split
    · have hm := List.takeWhile_append_dropWhile (p := isDigit) (l := more)
      rw [heq] at h
      simp only [Piece.text, List.cons_append, List.append_assoc, hm, h]
    · simp only [Piece.text, List.cons_append, h]
  · simp only [Piece.text, List.cons_append, h]

theorem word_append (c : Char) (rest : List Char) :
    (word c rest).1.text ++ (word c rest).2 = c :: rest := by
  have h := List.takeWhile_append_dropWhile (p := isWordChar) (l := rest)
  simp only [word, Piece.text, List.cons_append, h]

theorem slash_append (rest : List Char) :
    (slash rest).1.text ++ (slash rest).2 = '/' :: rest := by
  unfold slash
  split
  · rename_i more
    have h := List.takeWhile_append_dropWhile (p := (· != '\n')) (l := more)
    simp only [Piece.text, List.cons_append, h]
  · exact symbol_append '/' rest

/-- The first piece and the rest are the whole. -/
theorem piece_append (c : Char) (rest : List Char) :
    (piece c rest).1.text ++ (piece c rest).2 = c :: rest := by
  unfold piece
  split
  · rfl
  · split
    · rename_i h
      subst h
      exact slash_append rest
    · split
      · rename_i h
        subst h
        exact quoted_append rest
      · split
        · exact numeral_append c rest
        · split
          · exact word_append c rest
          · exact symbol_append c rest

theorem symbol_text_ne_nil (c : Char) (rest : List Char) : (symbol c rest).1.text ≠ [] := by
  unfold symbol
  split
  · simp [Piece.text]
  · split <;> simp [Piece.text]

theorem quoted_text_ne_nil (rest : List Char) : (quoted rest).1.text ≠ [] := by
  unfold quoted
  split <;> simp [Piece.text]

theorem numeral_text_ne_nil (c : Char) (rest : List Char) : (numeral c rest).1.text ≠ [] := by
  unfold numeral
  dsimp only
  split
  · split <;> simp [Piece.text]
  · simp [Piece.text]

theorem slash_text_ne_nil (rest : List Char) : (slash rest).1.text ≠ [] := by
  unfold slash
  split
  · simp [Piece.text]
  · exact symbol_text_ne_nil '/' rest

/-- No piece is empty. -/
theorem piece_text_ne_nil (c : Char) (rest : List Char) : (piece c rest).1.text ≠ [] := by
  unfold piece
  split
  · simp [Piece.text]
  · split
    · exact slash_text_ne_nil rest
    · split
      · exact quoted_text_ne_nil rest
      · split
        · exact numeral_text_ne_nil c rest
        · split
          · simp [word, Piece.text]
          · exact symbol_text_ne_nil c rest

/-- What follows the first piece is shorter than the source. -/
theorem length_piece_lt (c : Char) (rest : List Char) :
    (piece c rest).2.length < (c :: rest).length := by
  have hl := congrArg List.length (piece_append c rest)
  have hp : (piece c rest).1.text.length ≠ 0 :=
    fun h0 => piece_text_ne_nil c rest (List.length_eq_zero_iff.1 h0)
  simp only [List.length_append] at hl
  omega

/-! ### The whole source -/

/-- All pieces of a source, from left to right. -/
def pieces : List Char → List Piece
  | [] => []
  | c :: rest =>
    let first := piece c rest
    first.1 :: pieces first.2
termination_by cs => cs.length
decreasing_by exact length_piece_lt c rest

/-- The pieces of a source, laid side by side, are the source. -/
theorem flatMap_text_pieces (cs : List Char) : (pieces cs).flatMap Piece.text = cs := by
  fun_induction pieces cs with
  | case1 => rfl
  | case2 c rest first ih => simp only [List.flatMap_cons, ih, first, piece_append]

/-- The tokens and errors among pieces that start on `line`.  Each item stands on the line that
    its piece ends on, and the end of the source comes last. -/
def items (line : Nat) : List Piece → List (Except LexicalError Token)
  | [] => [.ok ⟨.eof, "", line⟩]
  | p :: rest =>
    let line := line + p.text.count '\n'
    match p with
    | .token kind lexeme => .ok ⟨kind, .ofList lexeme, line⟩ :: items line rest
    | .unexpected c => .error ⟨line, .unexpectedCharacter c⟩ :: items line rest
    | .openString _ => .error ⟨line, .unterminatedString⟩ :: items line rest
    | .blank _ | .comment _ => items line rest

end Lexer

/-- The tokens and lexical errors of a source, in order, up to the token that ends it (`scan`). -/
def scan (source : String) : List (Except LexicalError Token) :=
  Lexer.items 1 (Lexer.pieces source.toList)

/-- The tokens of a source, without what is no token. -/
def tokens (source : String) : List Token :=
  (scan source).filterMap Except.toOption

/-- The lexical errors of a source. -/
def lexicalErrors (source : String) : List LexicalError :=
  (scan source).filterMap fun item =>
    match item with
    | .ok _ => none
    | .error e => some e

end Treewalk
