import Treewalk.Proofs.Token.Scanner

/-!
# Characters as bytes

**A class of ASCII characters can be told byte by byte.**  An ASCII character is a single byte, and
no byte of a longer character is an ASCII character.  So a loop over bytes that stops at ASCII
characters only stops where a loop over characters does.
-/

namespace Treewalk

open Lexer

/-! ### Encoding -/

/-- The bytes of a text. -/
def encode (cs : List Char) : List UInt8 :=
  cs.flatMap String.utf8EncodeChar

/-- The length of a text in bytes. -/
def byteLength (cs : List Char) : Nat :=
  (encode cs).length

theorem encode_append (cs ds : List Char) : encode (cs ++ ds) = encode cs ++ encode ds :=
  List.flatMap_append

theorem encode_cons (c : Char) (cs : List Char) :
    encode (c :: cs) = String.utf8EncodeChar c ++ encode cs :=
  List.flatMap_cons

@[simp] theorem byteLength_nil : byteLength [] = 0 := rfl

@[simp] theorem byteLength_append (cs ds : List Char) :
    byteLength (cs ++ ds) = byteLength cs + byteLength ds := by
  rw [byteLength, encode_append, List.length_append]
  rfl

theorem byteLength_singleton (c : Char) : byteLength [c] = c.utf8Size := by
  rw [byteLength, encode_cons, encode, List.flatMap_nil, List.append_nil,
    String.length_utf8EncodeChar]

theorem byteLength_cons (c : Char) (cs : List Char) :
    byteLength (c :: cs) = c.utf8Size + byteLength cs := by
  rw [← List.singleton_append, byteLength_append, byteLength_singleton]

/-- The bytes of a string are those of its characters. -/
theorem toByteArray_ofList (cs : List Char) :
    (String.ofList cs).toByteArray = (encode cs).toByteArray :=
  String.toByteArray_ofList

theorem toList_bytes (s : Scanner) : s.bytes.toList = encode s.source.toList := by
  have hbytes := toByteArray_ofList s.source.toList
  rw [String.ofList_toList] at hbytes
  rw [Scanner.bytes, hbytes, List.toList_data_toByteArray]

namespace Scanner

theorem toNat_charOf (b : UInt8) : (charOf b).toNat = b.toNat :=
  UInt8.toNat_toUInt32 b

theorem charOf_inj {a b : UInt8} (h : charOf a = charOf b) : a = b := by
  rw [← UInt8.toNat_inj, ← toNat_charOf, ← toNat_charOf, h]

/-- An ASCII character is a single byte. -/
theorem utf8EncodeChar_of_ascii {c : Char} (hc : c.toNat < 128) :
    String.utf8EncodeChar c = [c.toUInt8] ∧ charOf c.toUInt8 = c := by
  have hsmall : c.val ≤ 127 := UInt32.le_iff_toNat_le.mpr (Nat.le_of_lt_succ hc)
  refine ⟨String.utf8EncodeChar_eq_singleton (Char.utf8Size_eq_one_iff.mpr hsmall), ?_⟩
  rw [← Char.toNat_inj, toNat_charOf]
  show c.val.toUInt8.toNat = c.toNat
  rw [UInt32.toNat_toUInt8]
  exact Nat.mod_eq_of_lt (Nat.lt_trans hc (by decide))

/-- No byte of any other character is an ASCII character. -/
theorem le_of_mem_utf8EncodeChar {c : Char} (hc : 128 ≤ c.toNat) {b : UInt8}
    (hb : b ∈ String.utf8EncodeChar c) : 128 ≤ (charOf b).toNat := by
  have hwide : ¬ c.val.toNat ≤ 127 := Nat.not_le.mpr hc
  rw [toNat_charOf]
  simp only [String.utf8EncodeChar, if_neg hwide] at hb
  split at hb
  · simp only [List.mem_cons, List.not_mem_nil, or_false] at hb
    rcases hb with rfl | rfl <;> simp only [UInt8.toNat_ofNat'] <;> omega
  · split at hb
    · simp only [List.mem_cons, List.not_mem_nil, or_false] at hb
      rcases hb with rfl | rfl | rfl <;> simp only [UInt8.toNat_ofNat'] <;> omega
    · simp only [List.mem_cons, List.not_mem_nil, or_false] at hb
      rcases hb with rfl | rfl | rfl | rfl <;> simp only [UInt8.toNat_ofNat'] <;> omega

/-- Every character has a first byte. -/
theorem utf8EncodeChar_eq_cons (c : Char) :
    ∃ b more, String.utf8EncodeChar c = b :: more := by
  refine List.exists_cons_of_length_pos ?_
  rw [String.length_utf8EncodeChar]
  exact c.utf8Size_pos

/-! ### Classes of characters -/

/-- A class of characters that has all or none of those beyond ASCII. -/
def OfAscii (p : Char → Bool) : Prop :=
  ∀ c d : Char, 128 ≤ c.toNat → 128 ≤ d.toNat → p c = p d

section Classes

variable {p : Char → Bool} (hp : OfAscii p)
include hp

/-- Such a class has a character just if it has its bytes. -/
theorem class_of_mem_utf8EncodeChar {c : Char} {b : UInt8} (hb : b ∈ String.utf8EncodeChar c) :
    p (charOf b) = p c := by
  rcases Nat.lt_or_ge c.toNat 128 with hc | hc
  · obtain ⟨hbytes, hchar⟩ := utf8EncodeChar_of_ascii hc
    rw [hbytes, List.mem_singleton] at hb
    rw [hb, hchar]
  · exact hp _ _ (le_of_mem_utf8EncodeChar hc hb) hc

theorem not_class_of_wide (hnone : p '\x80' = false) {c : Char} (hc : 128 ≤ c.toNat) : ¬ p c := by
  rw [hp c '\x80' hc (by decide), hnone]
  exact Bool.false_ne_true

theorem head?_encode_any (cs : List Char) :
    (encode cs).head?.any (p ∘ charOf) = cs.head?.any p := by
  cases cs with
  | nil => rfl
  | cons c cs =>
    obtain ⟨b, more, hbytes⟩ := utf8EncodeChar_eq_cons c
    rw [encode_cons, hbytes]
    exact class_of_mem_utf8EncodeChar hp (hbytes ▸ List.mem_cons_self)

theorem takeWhile_encode (cs : List Char) :
    (encode cs).takeWhile (p ∘ charOf) = encode (cs.takeWhile p) := by
  induction cs with
  | nil => rfl
  | cons c cs ih =>
    have hbytes : ∀ b ∈ String.utf8EncodeChar c, (p ∘ charOf) b = p c :=
      fun b hb => class_of_mem_utf8EncodeChar hp hb
    by_cases hc : p c
    · rw [encode_cons, List.takeWhile_append_of_pos fun b hb => (hbytes b hb).trans hc, ih,
        List.takeWhile_cons_of_pos hc, encode_cons]
    · obtain ⟨b, more, hfirst⟩ := utf8EncodeChar_eq_cons c
      have hb : ¬ (p ∘ charOf) b := by
        rw [hbytes b (hfirst ▸ List.mem_cons_self)]
        exact hc
      rw [List.takeWhile_cons_of_neg hc, encode_cons, hfirst, List.cons_append,
        List.takeWhile_cons_of_neg hb]
      rfl

end Classes

/-- Most classes have no character beyond ASCII. -/
theorem ofAscii_of_none {p : Char → Bool} (h : ∀ c : Char, 128 ≤ c.toNat → p c = false) :
    OfAscii p :=
  fun c d hc hd => (h c hc).trans (h d hd).symm

theorem ofAscii_isDigit : OfAscii isDigit := by
  refine ofAscii_of_none fun c hc => ?_
  simp only [isDigit, decide_eq_false_iff_not, Char.le_def, UInt32.le_iff_toNat_le]
  rintro ⟨-, hhigh⟩
  exact absurd (Nat.le_trans hc hhigh) (by decide)

theorem ofAscii_isLetter : OfAscii isLetter := by
  refine ofAscii_of_none fun c hc => ?_
  simp only [isLetter, Bool.or_eq_false_iff, decide_eq_false_iff_not, Char.le_def,
    UInt32.le_iff_toNat_le]
  refine ⟨⟨?_, ?_⟩, ?_⟩
  · rintro ⟨-, hhigh⟩
    exact absurd (Nat.le_trans hc hhigh) (by decide)
  · rintro ⟨-, hhigh⟩
    exact absurd (Nat.le_trans hc hhigh) (by decide)
  · rintro rfl
    exact absurd hc (by decide)

theorem ofAscii_isWordChar : OfAscii isWordChar := fun c d hc hd => by
  rw [isWordChar, isWordChar, ofAscii_isLetter c d hc hd, ofAscii_isDigit c d hc hd]

theorem ofAscii_beq {a : Char} (ha : a.toNat < 128) : OfAscii (· == a) := by
  refine ofAscii_of_none fun c hc => beq_false_of_ne ?_
  rintro rfl
  exact Nat.not_lt.mpr hc ha

theorem ofAscii_bne {a : Char} (ha : a.toNat < 128) : OfAscii (· != a) := fun c d hc hd =>
  congrArg not (ofAscii_beq ha c d hc hd)

theorem countP_utf8EncodeChar {a : Char} (ha : a.toNat < 128) (c : Char) :
    (String.utf8EncodeChar c).countP ((· == a) ∘ charOf) = [c].count a := by
  by_cases hc : c = a
  · subst hc
    obtain ⟨hbytes, hchar⟩ := utf8EncodeChar_of_ascii ha
    simp [hbytes, hchar]
  · have hnone : (String.utf8EncodeChar c).countP ((· == a) ∘ charOf) = 0 := by
      refine List.countP_eq_zero.mpr fun b hb => ?_
      rw [Function.comp_apply, class_of_mem_utf8EncodeChar (ofAscii_beq ha) hb]
      simpa using hc
    rw [hnone, List.count_singleton, if_neg (by simpa using hc)]

theorem countP_encode {a : Char} (ha : a.toNat < 128) (cs : List Char) :
    (encode cs).countP ((· == a) ∘ charOf) = cs.count a := by
  induction cs with
  | nil => rfl
  | cons c cs ih =>
    rw [encode_cons, List.countP_append, ih, countP_utf8EncodeChar ha, ← List.count_append,
      List.singleton_append]

end Scanner

end Treewalk
