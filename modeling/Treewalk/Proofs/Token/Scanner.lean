import Treewalk.Proofs.Sequencing
import Treewalk.Token.Lexer

/-!
# Scanning byte by byte

**A scanner walks along the bytes of a source and gives the next item whenever it is asked.**  It
has two marks: `start` is where the current lexeme starts, and `curr` is the byte that is looked at
next.  Look-ahead behind the last byte gives the byte 0.  A read behind the last byte, or a part of
the text that starts or stops inside a character, ends the scanner at once: nothing asks beforehand
whether there will be such a panic.

The search for the end of a comment is left to a function `memchr` that is given from outside.
-/

namespace Treewalk

/-- What ends a scanner at once. -/
inductive Panic where
  /-- There is no byte at this place. -/
  | noByte (place : Nat)
  /-- There is no such part of the text: a mark lies behind its end or inside a character. -/
  | noSlice (start stop : Nat)
deriving DecidableEq, Repr

/-- The part of a text between two places, if both lie between characters. -/
def slice (text : String) (start stop : Nat) : Except Panic String :=
  if h : String.Pos.Raw.IsValid text ⟨start⟩ ∧ String.Pos.Raw.IsValid text ⟨stop⟩
      ∧ start ≤ stop then
    .ok (text.extract ⟨⟨start⟩, h.1⟩ ⟨⟨stop⟩, h.2.1⟩)
  else
    .error (.noSlice start stop)

/-- The number that digits denote, perhaps with a point between them. -/
def Decimal.ofLexeme? (lexeme : String) : Option Float :=
  let whole := lexeme.toList.takeWhile Lexer.isDigit
  match lexeme.toList.dropWhile Lexer.isDigit with
  | [] => some (ofNumeral whole [])
  | point :: fraction =>
    if point = '.' ∧ fraction.all Lexer.isDigit then some (ofNumeral whole fraction) else none

/-- The state of a scanner. -/
structure Scanner where
  source : String
  /-- The first byte of the current lexeme. -/
  start : Nat
  /-- The byte that is looked at next. -/
  curr : Nat
  line : Nat
  /-- The kind of token that has been recognised and is not given yet. -/
  pending : Option TokenKind

/-- A step changes the scanner and has a result, unless there is a panic. -/
abbrev Scanning := EStateM Panic Scanner

namespace Scanner

/-- An item is a token or an error. -/
abbrev Item := Except LexicalError Token

/-- A scanner before its first step (`Scanner::new`). -/
def ofSource (source : String) : Scanner :=
  { source, start := 0, curr := 0, line := 1, pending := none }

/-- The bytes of the source. -/
def bytes (s : Scanner) : Array UInt8 :=
  s.source.toByteArray.data

/-! ### Single bytes -/

/-- No byte is left (`is_at_end`). -/
def isAtEnd (s : Scanner) : Bool :=
  decide (s.bytes.size ≤ s.curr)

/-- The next byte, or 0 at the end (`peek`). -/
def peek (s : Scanner) : UInt8 :=
  s.bytes[s.curr]?.getD 0

/-- The byte behind the next one, or 0 at the end (`peek_next`). -/
def peekNext (s : Scanner) : UInt8 :=
  s.bytes[s.curr + 1]?.getD 0

/-- Reads a byte (`advance`). -/
def advance : Scanning UInt8 := fun s =>
  match s.bytes[s.curr]? with
  | some b => .ok b { s with curr := s.curr + 1 }
  | none => .error (.noByte s.curr) s

/-- Reads the next byte if it is this one (`match_byte`). -/
def matchByte (expected : UInt8) : Scanning Bool := fun s =>
  if !s.isAtEnd && s.peek == expected then
    (do
      let _ ← advance
      return true : Scanning Bool) s
  else
    .ok false s

/-- The text between two places of the source. -/
def part (start stop : Scanner → Nat) : Scanning String := fun s =>
  match slice s.source (start s) (stop s) with
  | .ok text => .ok text s
  | .error panic => .error panic s

/-- The text of the current lexeme (`lexeme`). -/
def lexeme : Scanning String :=
  part (·.start) (·.curr)

/-- Remembers the kind of token that has been recognised. -/
def recognise (kind : TokenKind) : Scanning (Except LexicalError Unit) := fun s =>
  .ok (.ok ⟨⟩) { s with pending := some kind }

/-- Gives an error of the current line. -/
def refuse (cause : Malformed) : Scanning (Except LexicalError Unit) := fun s =>
  .ok (.error ⟨s.line, cause⟩) s

/-! ### Rows of bytes -/

/-- A byte as a character, which is an ASCII character if the byte is below 128. -/
def charOf (b : UInt8) : Char :=
  Char.ofUInt8 b

theorem advance_ok {s later : Scanner} {b : UInt8} (h : advance s = .ok b later) :
    s.curr < s.bytes.size ∧ later = { s with curr := s.curr + 1 } := by
  unfold advance at h
  split at h
  · rename_i hb
    cases h
    exact ⟨(Array.getElem?_eq_some_iff.mp hb).1, rfl⟩
  · cases h

/-- Reads on as long as the next byte is of a class. -/
def passWhile (p : Char → Bool) (s : Scanner) : EStateM.Result Panic Scanner Unit :=
  if p (charOf s.peek) then
    match _h : advance s with
    | .ok _ later => passWhile p later
    | .error panic later => .error panic later
  else
    .ok ⟨⟩ s
termination_by s.bytes.size - s.curr
decreasing_by
  obtain ⟨hlt, rfl⟩ := advance_ok _h
  exact Nat.sub_lt_sub_left hlt (Nat.lt_succ_self _)

/-- The lines are counted by their line feeds. -/
def counting (b : UInt8) (s : Scanner) : Scanner :=
  { s with line := if charOf b = '\n' then s.line + 1 else s.line }

/-- Reads up to the next quote, or up to the end, and counts the lines. -/
def passContents (s : Scanner) : EStateM.Result Panic Scanner Unit :=
  if !s.isAtEnd && charOf s.peek != '"' then
    match _h : advance s with
    | .ok b later => passContents (later.counting b)
    | .error panic later => .error panic later
  else
    .ok ⟨⟩ s
termination_by s.bytes.size - s.curr
decreasing_by
  obtain ⟨hlt, rfl⟩ := advance_ok _h
  exact Nat.sub_lt_sub_left hlt (Nat.lt_succ_self _)

/-- Reads up to the next line feed, or up to the end.  The line feed is left for later. -/
def passComment (memchr : UInt8 → Array UInt8 → Option Nat) : Scanning Unit := fun s =>
  if s.curr ≤ s.bytes.size then
    match memchr '\n'.toUInt8 (s.bytes.extract s.curr) with
    | some place => .ok ⟨⟩ { s with curr := s.curr + place }
    | none => .ok ⟨⟩ { s with curr := s.bytes.size }
  else
    .error (.noSlice s.curr s.bytes.size) s

/-! ### Lexemes -/

/-- A symbol that an equals sign may follow. -/
def operator (withEqual alone : TokenKind) : Scanning (Except LexicalError Unit) := do
  if ← matchByte '='.toUInt8 then recognise withEqual else recognise alone

/-- What follows the opening quote of a string (`parse_string`). -/
def string : Scanning (Except LexicalError Unit) := do
  passContents
  if (← get).isAtEnd then
    refuse .unterminatedString
  else
    let _ ← advance
    recognise (.string (← part (·.start + 1) (·.curr - 1)))

/-- What follows the first digit of a number (`parse_number`). -/
def number : Scanning (Except LexicalError Unit) := do
  passWhile Lexer.isDigit
  let s ← get
  if charOf s.peek = '.' && Lexer.isDigit (charOf s.peekNext) then
    let _ ← advance
    passWhile Lexer.isDigit
  recognise (.number ((Decimal.ofLexeme? (← lexeme)).getD 0))

/-- What follows the first letter of a word (`parse_identifier`). -/
def identifier : Scanning (Except LexicalError Unit) := do
  passWhile Lexer.isWordChar
  recognise (.ofWord (← lexeme))

/-- A slash starts a comment, or it is a symbol. -/
def slash (memchr : UInt8 → Array UInt8 → Option Nat) : Scanning (Except LexicalError Unit) := do
  if ← matchByte '/'.toUInt8 then
    passComment memchr
    return .ok ⟨⟩
  else
    recognise .slash

/-- Goes behind a character that starts at the current lexeme. -/
def goBehind (c : Char) : Scanning Unit := fun s =>
  .ok ⟨⟩ { s with curr := s.start + c.utf8Size }

/-- A character that starts nothing.  All its bytes are passed, so that it is reported once. -/
def unexpected : Scanning (Except LexicalError Unit) := do
  let rest ← part (·.start) (·.bytes.size)
  let c := rest.toList.head?.getD '\uFFFD'
  goBehind c
  refuse (.unexpectedCharacter c)

/-- Counts a line. -/
def newLine : Scanning Unit := fun s =>
  .ok ⟨⟩ { s with line := s.line + 1 }

/-- What starts with this character, which a single byte stands for. -/
def startingWith (memchr : UInt8 → Array UInt8 → Option Nat) (first : Char) :
    Scanning (Except LexicalError Unit) :=
  match first with
  | '(' => recognise .leftParen
  | ')' => recognise .rightParen
  | '{' => recognise .leftBrace
  | '}' => recognise .rightBrace
  | ',' => recognise .comma
  | '.' => recognise .dot
  | '-' => recognise .minus
  | '+' => recognise .plus
  | ';' => recognise .semicolon
  | '*' => recognise .star
  | '!' => operator .bangEqual .bang
  | '=' => operator .equalEqual .equal
  | '<' => operator .lessEqual .less
  | '>' => operator .greaterEqual .greater
  | ' ' => return .ok ⟨⟩
  | '\r' => return .ok ⟨⟩
  | '\t' => return .ok ⟨⟩
  | '\n' => do
    newLine
    return .ok ⟨⟩
  | '/' => slash memchr
  | '"' => string
  | c => if Lexer.isDigit c then number else if Lexer.isLetter c then identifier else unexpected

/-- Reads a token, a blank, a comment or what is none of them (`scan_token`). -/
def scanToken (memchr : UInt8 → Array UInt8 → Option Nat) :
    Scanning (Except LexicalError Unit) := do
  startingWith memchr (charOf (← advance))

/-! ### Items -/

/-- A lexeme starts here. -/
def mark : Scanning Unit := fun s =>
  .ok ⟨⟩ { s with start := s.curr, pending := none }

/-- The kind that has been recognised, which is forgotten. -/
def takePending : Scanning (Option TokenKind) := fun s =>
  .ok s.pending { s with pending := none }

/-- The item that a lexeme gives.  Blanks and comments give none. -/
def itemOfLexeme : Except LexicalError Unit → Scanning (Option Item)
  | .error e => return some (.error e)
  | .ok _ => do
    match ← takePending with
    | some kind => return some (.ok ⟨kind, ← lexeme, (← get).line⟩)
    | none => return none

/-- Reads a lexeme from here on. -/
def item? (memchr : UInt8 → Array UInt8 → Option Nat) : Scanning (Option Item) := do
  mark
  itemOfLexeme (← scanToken memchr)

/-! ### Every round gets on -/

/-- The scanner has read something of the lexeme that starts at this place of the source. -/
structure Reads (source : String) (start : Nat) (s : Scanner) : Prop where
  ofSource : s.source = source
  startsAt : s.start = start
  behind : start < s.curr

/-- A scanner that reads a lexeme goes on to read it. -/
def KeepsReading {α : Type} (x : Scanning α) : Prop :=
  ∀ ⦃source : String⦄ ⦃start : Nat⦄ ⦃s later : Scanner⦄ ⦃a : α⦄, s.Reads source start →
    x s = .ok a later → later.Reads source start

section KeepsReading

variable {α β : Type} {x : Scanning α} {f : α → Scanning β}

theorem KeepsReading.bind (hx : KeepsReading x) (hf : ∀ a, KeepsReading (f a)) :
    KeepsReading (x >>= f) := by
  intro source start s later b hs h
  obtain ⟨a, middle, hfirst, hrest⟩ := ok_of_bind_eq_ok h
  exact hf a (hx hs hfirst) hrest

theorem keepsReading_pure (a : α) : KeepsReading (pure a) := by
  intro source start s later b hs h
  cases h
  exact hs

/-- What changes neither mark and not the source. -/
theorem keepsReading_of_marks (h : ∀ s a later, x s = .ok a later →
    later.source = s.source ∧ later.start = s.start ∧ s.curr ≤ later.curr) : KeepsReading x := by
  intro source start s later a hs hx
  obtain ⟨hsource, hstart, hcurr⟩ := h s a later hx
  exact ⟨hsource.trans hs.ofSource, hstart.trans hs.startsAt, Nat.lt_of_lt_of_le hs.behind hcurr⟩

theorem keepsReading_advance : KeepsReading advance := by
  refine keepsReading_of_marks fun s b later h => ?_
  obtain ⟨-, rfl⟩ := advance_ok h
  exact ⟨rfl, rfl, Nat.le_succ _⟩

theorem keepsReading_get : KeepsReading (get : Scanning Scanner) := by
  refine keepsReading_of_marks fun s a later h => ?_
  cases h
  exact ⟨rfl, rfl, Nat.le_refl _⟩

theorem keepsReading_matchByte (expected : UInt8) : KeepsReading (matchByte expected) := by
  intro source start s later found hs h
  unfold matchByte at h
  split at h
  · exact (keepsReading_advance.bind fun _ => keepsReading_pure true) hs h
  · cases h
    exact hs

theorem keepsReading_part (start stop : Scanner → Nat) : KeepsReading (part start stop) := by
  refine keepsReading_of_marks fun s text later h => ?_
  unfold part at h
  split at h
  · cases h
    exact ⟨rfl, rfl, Nat.le_refl _⟩
  · cases h

theorem keepsReading_recognise (kind : TokenKind) : KeepsReading (recognise kind) := by
  refine keepsReading_of_marks fun s a later h => ?_
  cases h
  exact ⟨rfl, rfl, Nat.le_refl _⟩

theorem keepsReading_refuse (cause : Malformed) : KeepsReading (refuse cause) := by
  refine keepsReading_of_marks fun s a later h => ?_
  cases h
  exact ⟨rfl, rfl, Nat.le_refl _⟩

theorem keepsReading_newLine : KeepsReading newLine := by
  refine keepsReading_of_marks fun s a later h => ?_
  cases h
  exact ⟨rfl, rfl, Nat.le_refl _⟩

theorem keepsReading_passWhile (p : Char → Bool) : KeepsReading (passWhile p) := by
  intro source start s later a hs h
  fun_induction passWhile p s with
  | case1 s _ b middle hadvance ih => exact ih (keepsReading_advance hs hadvance) h
  | case2 => cases h
  | case3 s =>
    cases h
    exact hs

theorem keepsReading_passContents : KeepsReading passContents := by
  intro source start s later a hs h
  fun_induction passContents s with
  | case1 s _ b middle hadvance ih =>
    have hmiddle := keepsReading_advance hs hadvance
    exact ih ⟨hmiddle.ofSource, hmiddle.startsAt, hmiddle.behind⟩ h
  | case2 => cases h
  | case3 s =>
    cases h
    exact hs

variable (memchr : UInt8 → Array UInt8 → Option Nat)

theorem keepsReading_passComment : KeepsReading (passComment memchr) := by
  refine keepsReading_of_marks fun s a later h => ?_
  unfold passComment at h
  split at h
  · rename_i hle
    split at h
    · cases h
      exact ⟨rfl, rfl, Nat.le_add_right _ _⟩
    · cases h
      exact ⟨rfl, rfl, hle⟩
  · cases h

/-- A character has at least one byte. -/
theorem keepsReading_goBehind (c : Char) : KeepsReading (goBehind c) := by
  intro source start s later a hs h
  cases h
  refine ⟨hs.ofSource, hs.startsAt, ?_⟩
  show start < s.start + c.utf8Size
  rw [hs.startsAt]
  exact Nat.lt_add_of_pos_right c.utf8Size_pos

theorem keepsReading_operator (withEqual alone : TokenKind) :
    KeepsReading (operator withEqual alone) := by
  refine (keepsReading_matchByte _).bind fun found => ?_
  cases found
  · exact keepsReading_recognise alone
  · exact keepsReading_recognise withEqual

theorem keepsReading_string : KeepsReading string := by
  refine keepsReading_passContents.bind fun _ => keepsReading_get.bind fun s => ?_
  cases s.isAtEnd
  · exact keepsReading_advance.bind fun _ => (keepsReading_part _ _).bind fun text =>
      keepsReading_recognise (.string text)
  · exact keepsReading_refuse _

theorem keepsReading_number : KeepsReading number := by
  have hlast : KeepsReading (do recognise (.number ((Decimal.ofLexeme? (← lexeme)).getD 0))) :=
    (keepsReading_part _ _).bind fun _ => keepsReading_recognise _
  refine (keepsReading_passWhile _).bind fun _ => keepsReading_get.bind fun s => ?_
  cases charOf s.peek = '.' && Lexer.isDigit (charOf s.peekNext)
  · exact hlast
  · exact keepsReading_advance.bind fun _ => (keepsReading_passWhile _).bind fun _ => hlast

theorem keepsReading_identifier : KeepsReading identifier :=
  (keepsReading_passWhile _).bind fun _ => (keepsReading_part _ _).bind fun _ =>
    keepsReading_recognise _

theorem keepsReading_slash : KeepsReading (slash memchr) := by
  refine (keepsReading_matchByte _).bind fun found => ?_
  cases found
  · exact keepsReading_recognise .slash
  · exact (keepsReading_passComment memchr).bind fun _ => keepsReading_pure _

theorem keepsReading_unexpected : KeepsReading unexpected :=
  (keepsReading_part _ _).bind fun _ => (keepsReading_goBehind _).bind fun _ =>
    keepsReading_refuse _

theorem keepsReading_itemOfLexeme (result : Except LexicalError Unit) :
    KeepsReading (itemOfLexeme result) := by
  have htake : KeepsReading takePending := keepsReading_of_marks fun s a later h => by
    cases h
    exact ⟨rfl, rfl, Nat.le_refl _⟩
  cases result with
  | error e => exact keepsReading_pure _
  | ok _ =>
    refine htake.bind fun kind? => ?_
    cases kind? with
    | none => exact keepsReading_pure _
    | some kind => exact (keepsReading_part _ _).bind fun _ => keepsReading_get.bind fun _ =>
        keepsReading_pure _

theorem keepsReading_startingWith (first : Char) : KeepsReading (startingWith memchr first) := by
  unfold startingWith
  split
  case h_11 | h_12 | h_13 | h_14 => exact keepsReading_operator _ _
  case h_15 | h_16 | h_17 => exact keepsReading_pure _
  case h_18 => exact keepsReading_newLine.bind fun _ => keepsReading_pure _
  case h_19 => exact keepsReading_slash memchr
  case h_20 => exact keepsReading_string
  case h_21 =>
    split
    · exact keepsReading_number
    · split
      · exact keepsReading_identifier
      · exact keepsReading_unexpected
  all_goals exact keepsReading_recognise _

end KeepsReading

variable (memchr : UInt8 → Array UInt8 → Option Nat)

/-- A round reads at least one byte. -/
theorem item?_ok {s later : Scanner} {found : Option Item} (h : item? memchr s = .ok found later) :
    later.source = s.source ∧ s.curr < later.curr := by
  obtain ⟨_, marked, hmark, h⟩ := ok_of_bind_eq_ok h
  cases hmark
  obtain ⟨result, middle, hscan, h⟩ := ok_of_bind_eq_ok h
  obtain ⟨b, first, hadvance, hscan⟩ := ok_of_bind_eq_ok hscan
  obtain ⟨-, rfl⟩ := advance_ok hadvance
  have hfirst : Reads s.source s.curr
      { s with start := s.curr, curr := s.curr + 1, pending := none } :=
    ⟨rfl, rfl, Nat.lt_succ_self _⟩
  have hmiddle := keepsReading_startingWith memchr (charOf b) hfirst hscan
  have hlater := keepsReading_itemOfLexeme result hmiddle h
  exact ⟨hlater.ofSource, hlater.behind⟩

/-- The next item (`next`).  The end of the source is given once. -/
def next (s : Scanner) : EStateM.Result Panic Scanner (Option Item) :=
  if s.curr ≤ s.bytes.size then
    if s.curr = s.bytes.size then
      .ok (some (.ok ⟨.eof, "", s.line⟩)) { s with curr := s.curr + 1 }
    else
      match _h : item? memchr s with
      | .ok (some item) later => .ok (some item) later
      | .ok none later => next later
      | .error panic later => .error panic later
  else
    .ok none s
termination_by s.bytes.size + 1 - s.curr
decreasing_by
  obtain ⟨hsource, hlt⟩ := item?_ok memchr _h
  rw [bytes, hsource]
  exact Nat.sub_lt_sub_left (Nat.lt_succ_of_le ‹_›) hlt

/-- What a number of calls give one after another. -/
def calls : Nat → Scanning (List (Option Item))
  | 0 => return []
  | n + 1 => do
    let item ← next memchr
    return item :: (← calls n)

end Scanner

end Treewalk
