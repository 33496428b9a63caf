import Treewalk.Decimal.Layout
import Treewalk.Value
import Treewalk.Proofs.Decimal.Bits
import Treewalk.Proofs.Decimal.Shortest
import Treewalk.Proofs.Token.Rejoining

/-!
# Reading printed numbers back

**A number that is printed is read back as the same double.**  The text of an integer stands for the
value itself, and the text of any other number for a decimal that is nearest to no other double.
Neither has an exponent or a point without a digit at both sides, so the whole text is one token.
-/

namespace Treewalk

/-! ### Digits -/

namespace Decimal

theorem ofDigits_eq (digits : List Char) : ofDigits digits = Nat.ofDigitChars 10 digits 0 :=
  Nat.ofDigitChars_eq_foldl.symm

@[simp] theorem ofDigits_toDigits (n : Nat) : ofDigits (Nat.toDigits 10 n) = n := by
  rw [ofDigits_eq, Nat.ofDigitChars_ten_toDigits]

/-- Zeros behind digits multiply by ten. -/
theorem ofDigits_append_zeros (digits : List Char) (n : Nat) :
    ofDigits (digits ++ List.replicate n '0') = ofDigits digits * 10 ^ n := by
  rw [ofDigits_eq, ofDigits_eq, Nat.ofDigitChars_append, Nat.ofDigitChars_replicate_zero, Nat.mul_comm]

/-- Zeros in front of digits change nothing. -/
theorem ofDigits_zeros_append (digits : List Char) (n : Nat) :
    ofDigits (List.replicate n '0' ++ digits) = ofDigits digits := by
  rw [ofDigits_eq, ofDigits_eq, Nat.ofDigitChars_append, Nat.ofDigitChars_replicate_zero, Nat.mul_zero]

theorem isDigit_of_mem_toDigits {n : Nat} {c : Char} (h : c ∈ Nat.toDigits 10 n) :
    Lexer.isDigit c := by
  have hdigit := Nat.isDigit_of_mem_toDigits (by decide) (by decide) h
  simpa [Char.isDigit, Lexer.isDigit, Char.le_def] using hdigit

theorem isDigit_of_mem_zeros {n : Nat} {c : Char} (h : c ∈ List.replicate n '0') :
    Lexer.isDigit c := by
  rw [List.eq_of_mem_replicate h]
  decide

end Decimal

open Decimal

namespace Lexer

/-! ### Numbers as tokens -/

theorem form_whole {digits : List Char} (hne : digits ≠ []) (h : ∀ c ∈ digits, isDigit c) :
    Form digits (.number (nearest (ofDigits digits) 1)) := by
  obtain ⟨c, rest, rfl⟩ := List.exists_cons_of_ne_nil hne
  have hform : Form (c :: rest) (.number (ofNumeral (c :: rest) [])) := .integer h
  rwa [ofNumeral, List.append_nil] at hform

theorem form_toDigits (n : Nat) : Form (Nat.toDigits 10 n) (.number (nearest n 1)) := by
  have hform := form_whole (Nat.toDigits_ne_nil : Nat.toDigits 10 n ≠ [])
    fun c => isDigit_of_mem_toDigits
  rwa [ofDigits_toDigits] at hform

theorem form_point {whole fraction : List Char} (hwhole : whole ≠ [])
    (hwhole' : ∀ c ∈ whole, isDigit c) (hfraction : fraction ≠ [])
    (hfraction' : ∀ c ∈ fraction, isDigit c) :
    Form (whole ++ '.' :: fraction)
      (.number (nearest (ofDigits (whole ++ fraction)) (10 ^ fraction.length))) := by
  obtain ⟨c, whole, rfl⟩ := List.exists_cons_of_ne_nil hwhole
  obtain ⟨d, fraction, rfl⟩ := List.exists_cons_of_ne_nil hfraction
  exact .fraction hwhole' hfraction'

/-- Positional digits are a number, and it is read as the double nearest to the decimal. -/
theorem form_positional (d : Decimal) : Form (positional d)
    (.number (nearest (d.coefficient * 10 ^ d.exponent.toNat) (10 ^ (-d.exponent).toNat))) := by
  set digits := Nat.toDigits 10 d.coefficient with hcoefficient
  have hne : digits ≠ [] := Nat.toDigits_ne_nil
  have hdigits : ∀ c ∈ digits, isDigit c := fun c => isDigit_of_mem_toDigits
  have hvalue : ofDigits digits = d.coefficient := ofDigits_toDigits d.coefficient
  unfold positional
  simp only [← hcoefficient]
  split
  · rename_i hexponent
    have hform := form_whole (by simp [hne] : digits ++ List.replicate d.exponent.toNat '0' ≠ [])
      fun c hc => (List.mem_append.mp hc).elim (hdigits c) isDigit_of_mem_zeros
    have hscale : (-d.exponent).toNat = 0 := by omega
    rwa [ofDigits_append_zeros, hvalue, ← pow_zero 10, ← hscale] at hform
  · rename_i hexponent
    have hscale : d.exponent.toNat = 0 := by omega
    have hplaces : 0 < (-d.exponent).toNat := by omega
    rw [hscale, pow_zero, mul_one]
    set places := (-d.exponent).toNat
    split
    · rename_i hlong
      have hlength : (digits.drop (digits.length - places)).length = places := by
        rw [List.length_drop]
        omega
      have hform := form_point
        (by rw [← List.length_pos_iff, List.length_take]; omega :
          digits.take (digits.length - places) ≠ [])
        (fun c hc => hdigits c (List.mem_of_mem_take hc))
        (by rw [← List.length_pos_iff, hlength]; exact hplaces :
          digits.drop (digits.length - places) ≠ [])
        fun c hc => hdigits c (List.mem_of_mem_drop hc)
      rwa [List.take_append_drop, hvalue, hlength] at hform
    · rename_i hshort
      have hlength : (List.replicate (places - digits.length) '0' ++ digits).length = places := by
        rw [List.length_append, List.length_replicate]
        omega
      have hform := form_point (List.cons_ne_nil '0' []) (List.forall_mem_singleton.mpr rfl)
        (by simp [hne] : List.replicate (places - digits.length) '0' ++ digits ≠ [])
        fun c hc => (List.mem_append.mp hc).elim isDigit_of_mem_zeros (hdigits c)
      have hzeros := ofDigits_zeros_append digits (places - digits.length + 1)
      rw [List.replicate_succ, List.cons_append, hvalue] at hzeros
      rwa [List.singleton_append, List.singleton_append, hzeros, hlength] at hform

/-- A number holds no line feed. -/
theorem Form.newline_not_mem {lexeme : List Char} {value : Float} (h : Form lexeme (.number value)) :
    '\n' ∉ lexeme := by
  refine h.blank_not_mem (by simp) fun hquote => ?_
  obtain ⟨contents, hinside, rfl⟩ := h.eq_string hquote
  cases h.kind_unique (.string hinside)

/-- The text of a number is scanned as one token. -/
theorem scan_of_form {lexeme : List Char} {value : Float} (h : Form lexeme (.number value)) :
    scan (.ofList lexeme) = [.ok ⟨.number value, .ofList lexeme, 1⟩, .ok ⟨.eof, "", 1⟩] := by
  have hmunches : Munches [.token (.number value) lexeme] (lexeme ++ []) :=
    .cons (h.fits_apart (by simp)) .nil
  have hpieces := munches_iff.mp hmunches
  have hline : lexeme.count '\n' = 0 := List.count_eq_zero.mpr h.newline_not_mem
  rw [List.append_nil] at hpieces
  rw [scan, String.toList_ofList, ← hpieces]
  simp [items, Piece.text, hline]

end Lexer

/-! ### Doubles -/

namespace Decimal

/-- Only zero takes zero. -/
theorem index_eq_zero_of_takes {i : Nat} (h : (Dyadic.ofIndex i).Takes 0) : i = 0 := by
  have hnormal := Dyadic.isNormal_ofIndex i
  have hindex := Dyadic.index_ofIndex i
  set x := Dyadic.ofIndex i
  have hpos := two_pow_pos x.exponent
  have hle : (x.significand : ℚ) < 1 := by
    have hlow : (x.significand - x.stepDown) * 2 ^ x.exponent ≤ 0 := h.low_le
    have hstep := x.stepDown_le
    have hdiff := nonpos_of_mul_nonpos_left hlow hpos
    linarith
  have hzero : x.significand = 0 := by
    have hlt : x.significand < 1 := by exact_mod_cast hle
    omega
  have hleading := hnormal.leading
  have hleast := hnormal.least
  omega

/-- A finite double without a sign is read from each quotient that it takes. -/
theorem nearest_eq {x : Float} (hx : x.toBits.toNat < infinityIndex) {num den : Nat} (hden : 0 < den)
    (h : (Dyadic.ofIndex x.toBits.toNat).Takes (num / den)) : nearest num den = x := by
  have hindex : nearestIndex num den = x.toBits.toNat := by
    rcases Nat.eq_zero_or_pos num with rfl | hnum
    · rw [Nat.cast_zero, zero_div] at h
      rw [index_eq_zero_of_takes h]
      rfl
    · exact nearestIndex_eq hx hnum hden h
  rw [nearest, hindex, UInt64.ofNat_toNat, ofBits_toBits]

theorem ofFloat_eq {x : Float} (hx : x.toBits.toNat < infinityIndex) :
    Shape.ofFloat x = .finite false (Dyadic.ofIndex x.toBits.toNat) := by
  have hlt : x.toBits.toNat < 2 ^ 63 := by
    have hle : infinityIndex ≤ 2 ^ 63 := by decide
    omega
  unfold Shape.ofFloat Shape.ofBits
  simp only [Nat.pow_eq, Nat.mod_eq_of_lt hlt, if_pos hx, decide_eq_false (Nat.not_le.mpr hlt)]

/-- A magnitude that is a natural number has that number as its value. -/
theorem Dyadic.value_of_toNat? {x : Dyadic} {n : Nat} (h : x.toNat? = some n) : x.value = n := by
  unfold Dyadic.toNat? at h
  simp only [Nat.pow_eq] at h
  split at h
  · rename_i hexponent
    obtain ⟨k, hk⟩ := Int.eq_ofNat_of_zero_le hexponent
    cases h
    simp [Dyadic.value, hk]
  · rename_i hexponent
    split at h
    · rename_i hdivides
      obtain ⟨k, hk⟩ : ∃ k : Nat, x.exponent = -k := ⟨(-x.exponent).toNat, by omega⟩
      obtain ⟨m, hm⟩ := Nat.dvd_of_mod_eq_zero hdivides
      cases h
      rw [hm, Nat.mul_div_cancel_left m (by positivity)]
      simp only [Dyadic.value, hm, hk, neg_neg, Int.toNat_natCast, zpow_neg, zpow_natCast]
      push_cast
      field_simp
    · cases h

/-- Zero is a natural number. -/
theorem Dyadic.significand_pos {x : Dyadic} (h : x.toNat? = none) : 0 < x.significand := by
  by_contra hzero
  have hzero : x.significand = 0 := by omega
  unfold Dyadic.toNat? at h
  simp [hzero] at h

/-- The text of a finite double without a sign is a number that is read as that double. -/
theorem form_valueText {x : Float} (hx : x.toBits.toNat < infinityIndex) :
    Lexer.Form (valueText x).toList (.number x) := by
  unfold valueText named
  rw [ofFloat_eq hx]
  dsimp only
  split
  · rename_i n hn
    have htakes := Dyadic.takes_value (Dyadic.ofIndex x.toBits.toNat)
    rw [Dyadic.value_of_toNat? hn, ← div_one (n : ℚ), ← Nat.cast_one] at htakes
    have hform := Lexer.form_toDigits n
    rw [nearest_eq hx one_pos htakes] at hform
    simpa [signed] using hform
  · rename_i hnone
    obtain ⟨htakes, -⟩ := shortest_spec (Dyadic.isNormal_ofIndex _) (Dyadic.significand_pos hnone) .up
    have hform := Lexer.form_positional (shortest .up (Dyadic.ofIndex x.toBits.toNat))
    set d := shortest .up (Dyadic.ofIndex x.toBits.toNat)
    have hquotient : d.value
        = (d.coefficient * 10 ^ d.exponent.toNat : ℕ) / (10 ^ (-d.exponent).toNat : ℕ) := by
      push_cast
      rw [pow_toNat (by norm_num), ← mul_assoc, mul_div_cancel_right₀ _ (by positivity)]
      rfl
    rw [hquotient] at htakes
    rw [nearest_eq hx (by positivity) htakes] at hform
    simpa [signed] using hform

end Decimal

/-! ### Printed numbers -/

/-- Scanning what is printed for a finite double with sign bit zero yields one token, with the whole
    text as its lexeme and the double itself as its constant, and the end of the source behind it. -/
theorem scan_text_number {x : Float} (hx : x.toBits.toNat < infinityIndex) :
    scan (Value.number x).text
      = [.ok ⟨.number x, (Value.number x).text, 1⟩, .ok ⟨.eof, "", 1⟩] := by
  have hscan := Lexer.scan_of_form (form_valueText hx)
  rwa [String.ofList_toList] at hscan

/-- The least positive double has 324 decimals. -/
theorem scan_text_least : (Float.ofBits 1).toBits.toNat < infinityIndex
    ∧ scan (Value.number (.ofBits 1)).text
      = [.ok ⟨.number (.ofBits 1), (Value.number (.ofBits 1)).text, 1⟩, .ok ⟨.eof, "", 1⟩] :=
  ⟨by decide, scan_text_number (by decide)⟩

end Treewalk
