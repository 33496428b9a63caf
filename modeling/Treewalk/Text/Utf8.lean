/-!
# Reading bytes as UTF-8

**Bytes are a text, or they stop being one at a definite place.**  A byte sequence is cut into
segments from the left: a character, the longest start of a character that cannot go on, or a
character that the end of input cuts short.  A strict reader reports the first segment
that is not a character; a lenient one writes the replacement character for each.

The first continuation byte of some lead bytes has a narrower range than the others.  That
rules out overlong forms, surrogates and code points beyond the last.
-/

namespace Treewalk.Text.Utf8

/-! ### Segments -/

/-- One segment of a byte sequence. -/
inductive Segment where
  /-- A complete character. -/
  | char (c : Char)
  /-- Bytes that start no character, or that no character continues as they go on. -/
  | invalid (length : Nat)
  /-- The start of a character, at the end of the input. -/
  | incomplete
deriving DecidableEq, Repr

/-- How many continuation bytes follow a lead byte, and the range of the first of them. -/
def lead (b : UInt8) : Option (Nat × UInt8 × UInt8) :=
  if b < 0x80 then some (0, 0x80, 0xbf)
  else if b < 0xc2 then none
  else if b < 0xe0 then some (1, 0x80, 0xbf)
  else if b = 0xe0 then some (2, 0xa0, 0xbf)
  else if b = 0xed then some (2, 0x80, 0x9f)
  else if b < 0xf0 then some (2, 0x80, 0xbf)
  else if b = 0xf0 then some (3, 0x90, 0xbf)
  else if b < 0xf4 then some (3, 0x80, 0xbf)
  else if b = 0xf4 then some (3, 0x80, 0x8f)
  else none

/-- The code point bits that a lead byte with this many continuation bytes carries. -/
def leadBits (b : UInt8) : (continuations : Nat) → Nat
  | 0 => b.toNat
  | 1 => b.toNat % 32
  | 2 => b.toNat % 16
  | _ => b.toNat % 8

/-- Reads continuation bytes into `point`; `length` bytes were read before.  The result comes
    with the number of bytes it covers. -/
def continued : (missing : Nat) → (low high : UInt8) → (point length : Nat) → List UInt8 →
    Segment × Nat
  | 0, _, _, point, length, _ => (.char (Char.ofNat point), length)
  | _ + 1, _, _, _, length, [] => (.incomplete, length)
  | missing + 1, low, high, point, length, b :: bytes =>
    if low ≤ b ∧ b ≤ high then
      continued missing 0x80 0xbf (64 * point + b.toNat % 64) (length + 1) bytes
    else
      (.invalid length, length)

/-- The segment that starts with byte `b`, and how many bytes it covers. -/
def segmentAt (b : UInt8) (bytes : List UInt8) : Segment × Nat :=
  match lead b with
  | some (missing, low, high) => continued missing low high (leadBits b missing) 1 bytes
  | none => (.invalid 1, 1)

/-- The segments of a byte sequence, each with its length, after `skip` bytes that belong to
    the segment before. -/
def segmentsAfter : (skip : Nat) → List UInt8 → List (Segment × Nat)
  | _, [] => []
  | skip + 1, _ :: bytes => segmentsAfter skip bytes
  | 0, b :: bytes =>
    let first := segmentAt b bytes
    first :: segmentsAfter (first.2 - 1) bytes

/-- The segments of a byte sequence from left to right. -/
def segments (bytes : ByteArray) : List (Segment × Nat) :=
  segmentsAfter 0 bytes.toList

/-! ### Readers -/

/-- The place where bytes stop being a text; no length stands for a character cut short by the
    end of input. -/
structure Defect where
  index : Nat
  length : Option Nat
deriving DecidableEq, Repr

/-- The first defect of the segments that start at `index`, if any. -/
def firstDefect : (index : Nat) → List (Segment × Nat) → Option Defect
  | _, [] => none
  | index, (.char _, length) :: rest => firstDefect (index + length) rest
  | index, (.invalid length, _) :: _ => some ⟨index, some length⟩
  | index, (.incomplete, _) :: _ => some ⟨index, none⟩

/-- The character that stands for a segment in a lenient reading. -/
def Segment.toChar : Segment → Char
  | .char c => c
  | _ => '\ufffd'

/-- Reads bytes as a text, or reports where they stop being one. -/
def decode (bytes : ByteArray) : Except Defect String :=
  match String.fromUTF8? bytes with
  | some text => .ok text
  | none => .error ((firstDefect 0 (segments bytes)).getD ⟨0, none⟩)

/-- Reads bytes as a text, with the replacement character for each segment that is
    none. -/
def decodeLenient (bytes : ByteArray) : String :=
  match String.fromUTF8? bytes with
  | some text => text
  | none => .ofList ((segments bytes).map fun segment => segment.1.toChar)

/-- Says what is wrong with the bytes, and where. -/
def Defect.message (d : Defect) : String :=
  match d.length with
  | some length => s!"invalid utf-8 sequence of {length} bytes from index {d.index}"
  | none => s!"incomplete utf-8 byte sequence from index {d.index}"

end Treewalk.Text.Utf8
