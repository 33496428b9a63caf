import Treewalk.Syntax.Printer
import Treewalk.Proofs.Decimal.Reading

/-!
# The two texts of a number literal

**A listing of tokens and a printed tree show a number literal by the same text, unless it is an
integer from `2 ^ 63` on.**  There the printed tree goes on with all digits and `.0`, while the
listing takes the shortest digits, which have neither.
-/

namespace Treewalk

open Lexer

namespace Decimal

/-! ### What is read has no sign -/

open Float.Model Float.Model.UnpackedFloat in
theorem valid_of_le_infinity {bits : UInt64} (h : bits.toNat ≤ infinityIndex) :
    Format.binary64.Valid bits.toBitVec := by
  refine ⟨fun hexponent hsignificand => absurd ?_ hsignificand⟩
  apply BitVec.eq_of_toNat_eq
  have hexponent : bits.toNat / 2 ^ 52 % 2 ^ 11 = 2047 := by
    have heq := congrArg BitVec.toNat hexponent
    rwa [unpackExponent, BitVec.toNat_cast, BitVec.extractLsb_toNat, Nat.shiftRight_eq_div_pow] at heq
  rw [unpackMantissa, BitVec.toNat_cast, BitVec.extractLsb_toNat, Nat.shiftRight_zero]
  show bits.toNat % 2 ^ 52 = 0
  unfold infinityIndex at h
  omega

theorem nearestIndex_le (num den : Nat) : nearestIndex num den ≤ infinityIndex := by
  unfold nearestIndex
  split
  · exact Nat.zero_le _
  · exact Nat.min_le_right _ _

/-- A numeral is read as a double without a sign. -/
theorem toBits_nearest (num den : Nat) : (nearest num den).toBits.toNat = nearestIndex num den := by
  have hle := nearestIndex_le num den
  have hsize : (UInt64.ofNat (nearestIndex num den)).toNat = nearestIndex num den := by
    apply UInt64.toNat_ofNat_of_lt
    unfold infinityIndex at hle
    show _ < 2 ^ 64
    omega
  have hbits := pack_unpack (valid_of_le_infinity (hsize.trans_le hle))
  calc (nearest num den).toBits.toNat = (UInt64.ofNat (nearestIndex num den)).toNat :=
        congrArg BitVec.toNat hbits
    _ = nearestIndex num den := hsize

theorem le_infinity_of_form {lexeme : List Char} {value : Float} (h : Form lexeme (.number value)) :
    value.toBits.toNat ≤ infinityIndex := by
  generalize hkind : TokenKind.number value = kind at h
  cases h with
  | symbol hmem =>
    have hsymbols : ∀ entry ∈ symbols, entry.2.ctorIdx ≠ 21 := by decide
    exact absurd (hkind ▸ rfl) (hsymbols _ hmem)
  | string _ => cases hkind
  | integer _ =>
    cases hkind
    exact (toBits_nearest _ _).trans_le (nearestIndex_le _ _)
  | fraction _ _ =>
    cases hkind
    exact (toBits_nearest _ _).trans_le (nearestIndex_le _ _)
  | word _ _ hword =>
    have hreserved : ∀ entry ∈ TokenKind.reserved, entry.2.ctorIdx ≠ 21 := by decide
    rcases hword with hmem | ⟨-, rfl⟩
    · exact absurd (hkind ▸ rfl) (hreserved _ hmem)
    · cases hkind

/-! ### Large integers -/

/-- The value of a double that is a natural number. -/
def whole? (x : Float) : Option Nat :=
  match Shape.ofFloat x with
  | .finite _ magnitude => magnitude.toNat?
  | _ => none

theorem interval_denominator_pos (x : Dyadic) : 0 < x.interval.denominator :=
  Nat.pow_pos (by decide)

/-- The leading digit of a quotient that is a natural number is the first of that number. -/
theorem leadingExponent_eq {num den n : Nat} (hden : 0 < den) (h : (num / den : ℚ) = n)
    (hn : 0 < n) : leadingExponent num den = digitCount n - 1 := by
  have hden' : (den : ℚ) ≠ 0 := by exact_mod_cast hden.ne'
  have hnum : num = n * den := by
    rw [div_eq_iff hden'] at h
    exact_mod_cast h
  have hle : den ≤ num := by
    rw [hnum]
    exact Nat.le_mul_of_pos_left den hn
  rw [leadingExponent, if_pos hle, hnum, Nat.mul_div_cancel n hden]

/-- The shortest digits of a large integer reach at most sixteen places below its leading one, so
    there is no point among them. -/
theorem point_not_mem_positional {x : Dyadic} {n : Nat} (hnormal : x.IsNormal)
    (hn : x.toNat? = some n) (hlarge : 10 ^ 16 ≤ n) (tie : Tie) :
    '.' ∉ positional (shortest tie x) := by
  have hvalue : x.value = n := Dyadic.value_of_toNat? hn
  have hx : 0 < x.significand := by
    by_contra hzero
    have hzero : x.significand = 0 := by omega
    rw [Dyadic.value, hzero, Nat.cast_zero, zero_mul] at hvalue
    have hn : n = 0 := by exact_mod_cast hvalue.symm
    omega
  obtain ⟨-, hexponent⟩ := shortest_spec hnormal hx tie
  have hleading : 16 ≤ leadingExponent x.interval.value x.interval.denominator := by
    rw [leadingExponent_eq (interval_denominator_pos x) (value_div_denominator x ▸ hvalue) (by omega)]
    have hdigits : 10 ^ 16 < 10 ^ digitCount n := hlarge.trans_lt (lt_pow_digitCount n)
    have hcount : 16 < digitCount n := (Nat.pow_lt_pow_iff_right (by decide)).mp hdigits
    omega
  unfold positional
  dsimp only
  rw [if_pos (by omega)]
  intro hmem
  have hdigit : isDigit '.' :=
    (List.mem_append.mp hmem).elim isDigit_of_mem_toDigits isDigit_of_mem_zeros
  exact absurd hdigit (by decide)

end Decimal

open Decimal

/-! ### Literals -/

theorem tokenText_eq_iff {x : Float} (hx : x.toBits.toNat ≤ infinityIndex) :
    tokenText x = literalText x ↔ ∀ n, whole? x = some n → n < 2 ^ 63 := by
  unfold tokenText literalText named whole?
  rcases Nat.lt_or_eq_of_le hx with hlt | heq
  · have hnormal := Dyadic.isNormal_ofIndex x.toBits.toNat
    rw [ofFloat_eq hlt]
    dsimp only
    rcases hn : (Dyadic.ofIndex x.toBits.toNat).toNat? with _ | n
    · simp
    · simp only [Nat.pow_eq, Option.some.injEq, forall_eq']
      split
      · rename_i hsmall
        simp [hsmall]
      · rename_i hlarge
        have hpoint := point_not_mem_positional hnormal hn (by omega) .up
        refine ⟨fun htexts => absurd ?_ hpoint, fun hsmall => absurd hsmall hlarge⟩
        have hchars := congrArg String.toList htexts
        simp only [signed, String.toList_ofList, if_neg Bool.false_ne_true] at hchars
        rw [hchars]
        simp
  · have hinfinite : Shape.ofFloat x = .infinite false := by
      unfold Shape.ofFloat
      rw [heq]
      rfl
    rw [hinfinite]
    simp

/-- The listing of a number token shows the same text as the printed literal just if the value is no
    integer from `2 ^ 63` on. -/
theorem literalText_eq_iff {source : String} {t : Token} {value : Float} (ht : t ∈ tokens source)
    (hkind : t.kind = .number value) :
    t.kind.literalText = (Literal.number value).text ↔ ∀ n, whole? value = some n → n < 2 ^ 63 := by
  rcases form_of_mem_tokens ht with hend | ⟨lexeme, hform, -⟩
  · rw [hkind] at hend
    cases hend
  · rw [hkind] at hform ⊢
    exact tokenText_eq_iff (le_infinity_of_form hform)

/-- The first integer that is too large is listed and printed differently. -/
theorem literalText_ne_two_pow :
    ∃ t value, t ∈ tokens "9223372036854775808" ∧ t.kind = .number value
      ∧ whole? value = some (2 ^ 63)
      ∧ t.kind.literalText ≠ (Literal.number value).text := by
  have hany : (tokens "9223372036854775808").any (fun t => match t.kind with
    | .number value => whole? value = some (2 ^ 63)
    | _ => false) = true := by decide +kernel
  obtain ⟨t, ht, hwhole⟩ := List.any_eq_true.mp hany
  split at hwhole
  · rename_i value hkind
    have hwhole := of_decide_eq_true hwhole
    refine ⟨t, value, ht, hkind, hwhole, fun htexts => ?_⟩
    exact absurd ((literalText_eq_iff ht hkind).mp htexts _ hwhole) (Nat.lt_irrefl _)
  · cases hwhole

example : tokenText (nearest (2 ^ 63) 1) = "9223372036854776000"
    ∧ literalText (nearest (2 ^ 63) 1) = "9223372036854775808.0" := by
  decide +kernel

end Treewalk
