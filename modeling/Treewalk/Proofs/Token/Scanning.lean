import Mathlib.Data.List.TakeWhile
import Treewalk.Proofs.Token.Bytes

/-!
# Between characters

**A scanner that stands in front of a character stands in front of one again.**  Inside of a round it
may look at the middle of a character: the loops over the bytes of a string or a comment pass over a
character of several bytes in as many steps.  But they stop at ASCII characters, or at the end, so
that both marks lie between characters whenever a part of the source is taken.
-/

namespace Treewalk

open Lexer

/-- A search for a byte gives its first place, or it finds out that there is none. -/
structure FindsFirst (memchr : UInt8 → Array UInt8 → Option Nat) : Prop where
  found {b : UInt8} {bytes : Array UInt8} {place : Nat} (h : memchr b bytes = some place) :
    bytes[place]? = some b ∧ ∀ i < place, bytes[i]? ≠ some b
  absent {b : UInt8} {bytes : Array UInt8} (h : memchr b bytes = none) : b ∉ bytes

namespace Scanner

/-! ### The bytes that are left -/

/-- The bytes that are left. -/
def ahead (s : Scanner) : List UInt8 :=
  s.bytes.toList.drop s.curr

/-- The scanner some bytes later. -/
def further (s : Scanner) (n : Nat) : Scanner :=
  { s with curr := s.curr + n }

theorem further_further (s : Scanner) (m n : Nat) :
    (s.further m).further n = s.further (m + n) := by
  simp only [further, Nat.add_assoc]

theorem ahead_further (s : Scanner) (n : Nat) : (s.further n).ahead = s.ahead.drop n := by
  rw [ahead, ahead, List.drop_drop]
  rfl

theorem getElem?_ahead (s : Scanner) (i : Nat) : s.ahead[i]? = s.bytes[s.curr + i]? := by
  rw [ahead, List.getElem?_drop, Array.getElem?_toList]

theorem advance_of_ahead {s : Scanner} {b : UInt8} {more : List UInt8} (h : s.ahead = b :: more) :
    advance s = .ok b (s.further 1) := by
  have hb : s.bytes[s.curr]? = some b := by
    rw [← Nat.add_zero s.curr, ← getElem?_ahead, h]
    rfl
  rw [advance, hb]
  rfl

theorem peek_eq (s : Scanner) : s.peek = s.ahead.head?.getD 0 := by
  rw [peek, List.head?_eq_getElem?, getElem?_ahead, Nat.add_zero]

theorem peekNext_eq (s : Scanner) : s.peekNext = s.ahead.tail.head?.getD 0 := by
  rw [peekNext, List.head?_eq_getElem?, List.getElem?_tail, getElem?_ahead]

theorem isAtEnd_eq (s : Scanner) : s.isAtEnd = s.ahead.isEmpty := by
  rw [isAtEnd, Bool.eq_iff_iff, decide_eq_true_iff, List.isEmpty_iff, ahead, List.drop_eq_nil_iff,
    Array.length_toList]

/-- Where nothing is left, the look-ahead gives a byte that is in no class. -/
theorem class_peek {p : Char → Bool} (hp : p '\x00' = false) (s : Scanner) :
    p (charOf s.peek) = s.ahead.head?.any (p ∘ charOf) := by
  rw [peek_eq]
  cases s.ahead.head? with
  | none => exact hp
  | some b => rfl

theorem class_peekNext {p : Char → Bool} (hp : p '\x00' = false) (s : Scanner) :
    p (charOf s.peekNext) = s.ahead.tail.head?.any (p ∘ charOf) := by
  rw [peekNext_eq]
  cases s.ahead.tail.head? with
  | none => exact hp
  | some b => rfl

/-! ### Loops over bytes -/

/-- The scanner behind these bytes, with the line feeds among them counted. -/
def behindCounted (s : Scanner) (read : List UInt8) : Scanner :=
  { s.further read.length with line := s.line + read.countP ((· == '\n') ∘ charOf) }

theorem ahead_cons {s later : Scanner} {b : UInt8} (h : advance s = .ok b later) :
    s.ahead = b :: later.ahead ∧ later = s.further 1 := by
  rcases hahead : s.ahead with _ | ⟨first, more⟩
  · have hlt := (advance_ok h).1
    rw [ahead, List.drop_eq_nil_iff, Array.length_toList] at hahead
    exact absurd hlt (Nat.not_lt.mpr hahead)
  · cases (advance_of_ahead hahead).symm.trans h
    rw [ahead_further, hahead]
    exact ⟨rfl, rfl⟩

/-- In front of a byte there is no panic. -/
theorem advance_ne_error {s later : Scanner} {panic : Panic} {q : UInt8 → Bool}
    (h : s.ahead.head?.any q = true) : advance s ≠ .error panic later := by
  intro hadvance
  rcases hahead : s.ahead with _ | ⟨b, more⟩
  · rw [hahead] at h
    cases h
  · cases (advance_of_ahead hahead).symm.trans hadvance

theorem takeWhile_eq_nil_of_head? {l : List UInt8} {q : UInt8 → Bool}
    (h : ¬ l.head?.any q = true) : l.takeWhile q = [] := by
  cases l with
  | nil => rfl
  | cons b more => exact List.takeWhile_cons_of_neg h

theorem passWhile_eq {p : Char → Bool} (hp : p '\x00' = false) (s : Scanner) :
    passWhile p s = .ok ⟨⟩ (s.further (s.ahead.takeWhile (p ∘ charOf)).length) := by
  fun_induction passWhile p s with
  | case1 s hpeek b later hadvance ih =>
    obtain ⟨hahead, hlater⟩ := ahead_cons hadvance
    rw [class_peek hp, hahead] at hpeek
    rw [ih, hahead, List.takeWhile_cons_of_pos (p := p ∘ charOf) hpeek, List.length_cons, hlater,
      further_further, Nat.add_comm]
  | case2 s hpeek panic later hadvance =>
    rw [class_peek hp] at hpeek
    exact absurd hadvance (advance_ne_error hpeek)
  | case3 s hpeek =>
    rw [class_peek hp] at hpeek
    rw [takeWhile_eq_nil_of_head? hpeek]
    rfl

/-- Where nothing is left, no look-ahead is needed. -/
theorem class_next (p : Char → Bool) (s : Scanner) :
    (!s.isAtEnd && p (charOf s.peek)) = s.ahead.head?.any (p ∘ charOf) := by
  rw [isAtEnd_eq, peek_eq]
  cases s.ahead <;> rfl

/-- A byte that is read and counted, and those that follow it. -/
theorem behindCounted_cons (s : Scanner) (b : UInt8) (read : List UInt8) :
    ((s.further 1).counting b).behindCounted read = s.behindCounted (b :: read) := by
  have hcurr : s.curr + 1 + read.length = s.curr + (read.length + 1) := by omega
  by_cases hb : charOf b = '\n'
  · have hcount : s.line + 1 + read.countP ((· == '\n') ∘ charOf)
        = s.line + (b :: read).countP ((· == '\n') ∘ charOf) := by
      rw [List.countP_cons_of_pos (by simpa using hb)]
      omega
    simp only [behindCounted, counting, further, if_pos hb, hcurr, hcount, List.length_cons]
  · have hcount : read.countP ((· == '\n') ∘ charOf)
        = (b :: read).countP ((· == '\n') ∘ charOf) := by
      rw [List.countP_cons_of_neg (by simpa using hb)]
    simp only [behindCounted, counting, further, if_neg hb, hcurr, hcount, List.length_cons]

theorem passContents_eq (s : Scanner) :
    passContents s = .ok ⟨⟩ (s.behindCounted (s.ahead.takeWhile ((· != '"') ∘ charOf))) := by
  fun_induction passContents s with
  | case1 s hnext b later hadvance ih =>
    obtain ⟨hahead, hlater⟩ := ahead_cons hadvance
    rw [class_next (· != '"'), hahead] at hnext
    have hsame : (later.counting b).ahead = later.ahead := rfl
    rw [ih, hsame, hahead, List.takeWhile_cons_of_pos (p := (· != '"') ∘ charOf) hnext, hlater,
      behindCounted_cons]
  | case2 s hnext panic later hadvance =>
    rw [class_next (· != '"')] at hnext
    exact absurd hadvance (advance_ne_error hnext)
  | case3 s hnext =>
    rw [class_next (· != '"')] at hnext
    rw [takeWhile_eq_nil_of_head? hnext]
    rfl

theorem takeWhile_of_first {l : List UInt8} {b : UInt8} {place : Nat} (h : l[place]? = some b)
    (hfirst : ∀ i < place, l[i]? ≠ some b) : (l.takeWhile (· != b)).length = place := by
  obtain ⟨hlt, hb⟩ := List.getElem?_eq_some_iff.mp h
  have hbefore : ∀ x ∈ l.take place, (x != b) = true := by
    intro x hx
    obtain ⟨i, hi, rfl⟩ := List.mem_take_iff_getElem.mp hx
    refine bne_iff_ne.mpr fun heq => hfirst i (by omega) ?_
    rw [← heq]
    exact List.getElem?_eq_getElem _
  have hsplit : l = l.take place ++ b :: l.drop (place + 1) := by
    rw [← hb, ← List.drop_eq_getElem_cons hlt, List.take_append_drop]
  rw [hsplit, List.takeWhile_append_of_pos hbefore, List.takeWhile_cons_of_neg (by simp),
    List.append_nil, List.length_take, Nat.min_eq_left (Nat.le_of_lt hlt)]

variable {memchr : UInt8 → Array UInt8 → Option Nat}

theorem passComment_eq (hm : FindsFirst memchr) {s : Scanner} (hs : s.curr ≤ s.bytes.size) :
    passComment memchr s
      = .ok ⟨⟩ (s.further (s.ahead.takeWhile ((· != '\n') ∘ charOf)).length) := by
  have hclass : ((· != '\n') ∘ charOf) = (· != '\n'.toUInt8) := by
    funext b
    have hiff : charOf b = '\n' ↔ b = '\n'.toUInt8 :=
      ⟨fun h => charOf_inj (h.trans (utf8EncodeChar_of_ascii (by decide)).2.symm),
        fun h => h ▸ (utf8EncodeChar_of_ascii (by decide)).2⟩
    rw [Function.comp_apply, bne, bne, Bool.beq_eq_decide_eq, Bool.beq_eq_decide_eq]
    simp [hiff]
  have hrest : (s.bytes.extract s.curr).toList = s.ahead := by
    rw [Array.toList_extract, List.extract_eq_take_drop, ← Array.length_toList, ← List.length_drop,
      List.take_length]
    rfl
  rw [passComment, if_pos hs, hclass]
  rcases hfound : memchr '\n'.toUInt8 (s.bytes.extract s.curr) with _ | place
  · have hall : s.ahead.takeWhile (· != '\n'.toUInt8) = s.ahead := by
      refine List.takeWhile_eq_self_iff.mpr fun b hb => bne_iff_ne.mpr ?_
      rintro rfl
      rw [← hrest, Array.mem_toList_iff] at hb
      exact hm.absent hfound hb
    have hlength : s.curr + s.ahead.length = s.bytes.size := by
      rw [ahead, List.length_drop, Array.length_toList, Nat.add_sub_cancel' hs]
    rw [hall, further, hlength]
  · obtain ⟨hplace, hfirst⟩ := hm.found hfound
    simp only [← Array.getElem?_toList, hrest] at hplace hfirst
    rw [takeWhile_of_first hplace hfirst]
    rfl

/-! ### In front of a character -/

/-- The scanner has read this text from its mark on, and this text is left. -/
structure Stands (s : Scanner) (before text rest : List Char) : Prop where
  splits : s.source.toList = before ++ text ++ rest
  start : s.start = byteLength before
  curr : s.curr = s.start + byteLength text

section Stands

variable {s : Scanner} {before text rest : List Char} {c : Char} {p : Char → Bool}

theorem Stands.ahead_eq (h : s.Stands before text rest) : s.ahead = encode rest := by
  rw [ahead, toList_bytes, h.splits, encode_append, h.curr, h.start, ← byteLength_append]
  exact List.drop_left

theorem Stands.size_eq (h : s.Stands before text rest) :
    s.bytes.size = s.curr + byteLength rest := by
  rw [← Array.length_toList, toList_bytes, h.splits, h.curr, h.start, ← byteLength_append,
    ← byteLength_append]
  rfl

theorem Stands.lt_size (h : s.Stands before text (c :: rest)) : s.curr < s.bytes.size := by
  rw [h.size_eq, byteLength_cons]
  exact Nat.lt_add_of_pos_right (Nat.add_pos_left c.utf8Size_pos _)

theorem Stands.further {more : List Char} (h : s.Stands before text (more ++ rest)) :
    (s.further (byteLength more)).Stands before (text ++ more) rest := by
  refine ⟨h.splits.trans ?_, h.start, ?_⟩
  · simp only [List.append_assoc]
  · show s.curr + byteLength more = s.start + byteLength (text ++ more)
    rw [byteLength_append, ← Nat.add_assoc, ← h.curr]

theorem Stands.further_takeWhile (h : s.Stands before text rest) (p : Char → Bool) :
    (s.further (byteLength (rest.takeWhile p))).Stands before (text ++ rest.takeWhile p)
      (rest.dropWhile p) := by
  rw [← List.takeWhile_append_dropWhile (p := p) (l := rest)] at h
  exact h.further

theorem utf8ByteSize_ofList (cs : List Char) :
    (String.ofList cs).utf8ByteSize = byteLength cs := by
  rw [← String.size_toByteArray, toByteArray_ofList, List.size_toByteArray]
  rfl

/-- Between characters a text can be taken. -/
theorem slice_of_splits {source : String} (h : source.toList = before ++ text ++ rest) :
    slice source (byteLength before) (byteLength before + byteLength text)
      = .ok (.ofList text) := by
  have hsource : source = String.ofList before ++ String.ofList text ++ String.ofList rest := by
    rw [← String.ofList_append, ← String.ofList_append, ← h, String.ofList_toList]
  have hfirst : String.Pos.Raw.IsValid source ⟨byteLength before⟩ := by
    rw [String.append_assoc] at hsource
    exact String.Pos.Raw.isValid_iff_exists_append.mpr
      ⟨_, _, hsource, String.Pos.Raw.ext (utf8ByteSize_ofList before).symm⟩
  have hlast : String.Pos.Raw.IsValid source ⟨byteLength before + byteLength text⟩ := by
    refine String.Pos.Raw.isValid_iff_exists_append.mpr ⟨_, _, hsource, ?_⟩
    exact String.Pos.Raw.ext (by
      rw [← byteLength_append, ← utf8ByteSize_ofList, String.ofList_append]
      rfl)
  rw [slice, dif_pos ⟨hfirst, hlast, Nat.le_add_right _ _⟩]
  refine congrArg Except.ok (String.toByteArray_inj.mp ?_)
  show (source.toByteArray.extract (byteLength before) (byteLength before + byteLength text)) = _
  rw [hsource, String.append_assoc, String.toByteArray_append, String.toByteArray_append]
  have hshift := ByteArray.extract_append_size_add (a := (String.ofList before).toByteArray)
    (b := (String.ofList text).toByteArray ++ (String.ofList rest).toByteArray) (i := 0)
    (j := (String.ofList text).toByteArray.size)
  rw [Nat.add_zero, String.size_toByteArray, String.size_toByteArray, utf8ByteSize_ofList,
    utf8ByteSize_ofList] at hshift
  rw [hshift]
  exact ByteArray.extract_append_eq_left (by rw [String.size_toByteArray, utf8ByteSize_ofList])

theorem Stands.lexeme_eq (h : s.Stands before text rest) : lexeme s = .ok (.ofList text) s := by
  have htext := slice_of_splits h.splits
  rw [← h.start, ← h.curr] at htext
  rw [lexeme, part, htext]

/-- A text between two ASCII characters can be taken without them. -/
theorem Stands.between {quote : Char} (h : s.Stands before ([quote] ++ text ++ [quote]) rest)
    (hquote : quote.toNat < 128) :
    part (·.start + 1) (·.curr - 1) s = .ok (.ofList text) s := by
  have hone : byteLength [quote] = 1 := by
    rw [byteLength, encode_cons, (utf8EncodeChar_of_ascii hquote).1]
    rfl
  have hsplits : s.source.toList = (before ++ [quote]) ++ text ++ ([quote] ++ rest) := by
    rw [h.splits]
    simp only [List.append_assoc]
  have htext := slice_of_splits hsplits
  have hstart : byteLength (before ++ [quote]) = s.start + 1 := by
    rw [byteLength_append, hone, h.start]
  have hcurr : byteLength (before ++ [quote]) + byteLength text = s.curr - 1 := by
    rw [h.curr, byteLength_append, byteLength_append, byteLength_append, hone, h.start]
    omega
  rw [hcurr, hstart] at htext
  rw [part, htext]

theorem Stands.advance_eq (h : s.Stands before text (c :: rest)) :
    ∃ b ∈ String.utf8EncodeChar c, advance s = .ok b (s.further 1) := by
  obtain ⟨b, more, hbytes⟩ := utf8EncodeChar_eq_cons c
  have hahead : s.ahead = b :: (more ++ encode rest) := by
    rw [h.ahead_eq, encode_cons, hbytes]
    rfl
  exact ⟨b, hbytes ▸ List.mem_cons_self, advance_of_ahead hahead⟩

theorem Stands.advance_ascii (h : s.Stands before text (c :: rest)) (hc : c.toNat < 128) :
    advance s = .ok c.toUInt8 (s.further 1) ∧ (s.further 1).Stands before (text ++ [c]) rest := by
  obtain ⟨hbytes, -⟩ := utf8EncodeChar_of_ascii hc
  obtain ⟨b, hb, hadvance⟩ := h.advance_eq
  rw [hbytes, List.mem_singleton] at hb
  subst hb
  have hlength : byteLength [c] = 1 := by
    rw [byteLength, encode_cons, hbytes]
    rfl
  rw [← hlength]
  exact ⟨hlength ▸ hadvance, h.further⟩

theorem Stands.class_peek (h : s.Stands before text rest) (hp : OfAscii p)
    (hzero : p '\x00' = false) : p (charOf s.peek) = rest.head?.any p := by
  rw [Scanner.class_peek hzero, h.ahead_eq, head?_encode_any hp]

theorem Stands.class_peekNext (h : s.Stands before text (c :: rest)) (hc : c.toNat < 128)
    (hp : OfAscii p) (hzero : p '\x00' = false) : p (charOf s.peekNext) = rest.head?.any p := by
  rw [Scanner.class_peekNext hzero, h.ahead_eq, encode_cons, (utf8EncodeChar_of_ascii hc).1]
  exact head?_encode_any hp rest

theorem Stands.isAtEnd_eq (h : s.Stands before text rest) : s.isAtEnd = rest.isEmpty := by
  rw [Scanner.isAtEnd_eq, h.ahead_eq]
  cases rest with
  | nil => rfl
  | cons c rest => simp [encode_cons]

theorem Stands.matchByte_true (h : s.Stands before text (c :: rest)) (hc : c.toNat < 128) :
    matchByte c.toUInt8 s = .ok true (s.further 1) := by
  obtain ⟨hbytes, -⟩ := utf8EncodeChar_of_ascii hc
  have hahead := h.ahead_eq
  rw [encode_cons, hbytes] at hahead
  have hnext : (!s.isAtEnd && s.peek == c.toUInt8) = true := by
    rw [Scanner.isAtEnd_eq, peek_eq, hahead]
    simp
  rw [matchByte, if_pos hnext]
  exact bind_of_ok (h.advance_ascii hc).1

theorem Stands.matchByte_false (h : s.Stands before text rest) (hc : c.toNat < 128)
    (hrest : rest.head? ≠ some c) : matchByte c.toUInt8 s = .ok false s := by
  have hnext : ¬ (!s.isAtEnd && s.peek == c.toUInt8) = true := by
    intro hnext
    obtain ⟨hmore, hpeek⟩ := Bool.and_eq_true_iff.mp hnext
    have hclass := class_next (· == c) s
    rw [h.ahead_eq, head?_encode_any (ofAscii_beq hc), eq_of_beq hpeek,
      (utf8EncodeChar_of_ascii hc).2, hmore, beq_self_eq_true] at hclass
    rcases rest with _ | ⟨d, rest⟩
    · cases hclass
    · exact hrest (congrArg some (eq_of_beq hclass.symm))
  rw [matchByte, if_neg hnext]

/-- The scanner stands behind the characters of the class. -/
theorem Stands.passWhile_eq (h : s.Stands before text rest) (hp : OfAscii p)
    (hzero : p '\x00' = false) :
    passWhile p s = .ok ⟨⟩ (s.further (byteLength (rest.takeWhile p)))
      ∧ (s.further (byteLength (rest.takeWhile p))).Stands before (text ++ rest.takeWhile p)
        (rest.dropWhile p) := by
  refine ⟨?_, h.further_takeWhile p⟩
  rw [Scanner.passWhile_eq hzero, h.ahead_eq, takeWhile_encode hp]
  rfl

theorem Stands.passComment_eq {memchr : UInt8 → Array UInt8 → Option Nat} (hm : FindsFirst memchr)
    (h : s.Stands before text rest) :
    passComment memchr s = .ok ⟨⟩ (s.further (byteLength (rest.takeWhile (· != '\n')))) := by
  have hle : s.curr ≤ s.bytes.size := by
    rw [h.size_eq]
    exact Nat.le_add_right _ _
  rw [Scanner.passComment_eq hm hle, h.ahead_eq, takeWhile_encode (ofAscii_bne (by decide))]
  rfl

theorem Stands.passContents_eq (h : s.Stands before text rest) :
    ∃ later, passContents s = .ok ⟨⟩ later
      ∧ later.Stands before (text ++ rest.takeWhile (· != '"')) (rest.dropWhile (· != '"'))
      ∧ later.line = s.line + (rest.takeWhile (· != '"')).count '\n'
      ∧ later.pending = s.pending := by
  have hbehind := h.further_takeWhile (· != '"')
  refine ⟨_, Scanner.passContents_eq s, ?_⟩
  rw [h.ahead_eq, takeWhile_encode (ofAscii_bne (by decide))]
  exact ⟨⟨hbehind.splits, hbehind.start, hbehind.curr⟩,
    congrArg (s.line + ·) (countP_encode (by decide) _), rfl⟩

end Stands

end Scanner

end Treewalk
