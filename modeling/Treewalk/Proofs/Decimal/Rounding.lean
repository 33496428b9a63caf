import Mathlib.Data.Int.Log
import Mathlib.Data.Rat.Floor
import Mathlib.Tactic.FieldSimp
import Mathlib.Tactic.Linarith
import Mathlib.Tactic.Positivity
import Mathlib.Tactic.Ring
import Treewalk.Decimal.Rounding

/-!
# Which quotients are read as a double

**A quotient between the midpoints to the neighbours of a double is read as that double.**  A
midpoint itself goes to the neighbour with the even significand.  The double below the first of a
binade is half as far away as the one above, and its quotients are rounded with the exponent of the
binade below; there they round up to the power of two, which is the first of the next binade again.

The reading works with integers.  Here its steps are seen as steps on rational numbers.
-/

namespace Treewalk.Decimal

/-! ### Powers with integer exponents -/

/-- An integer exponent is split between numerator and denominator. -/
theorem pow_toNat {b : ℚ} (hb : b ≠ 0) (k : ℤ) : b ^ k.toNat = b ^ k * b ^ (-k).toNat := by
  rcases Int.le_total 0 k with hk | hk
  · obtain ⟨n, rfl⟩ := Int.eq_ofNat_of_zero_le hk
    simp
  · obtain ⟨n, hn⟩ := Int.eq_ofNat_of_zero_le (Int.neg_nonneg_of_nonpos hk)
    obtain rfl : k = -n := by omega
    simp [hb]

theorem two_pow_pos (k : ℤ) : (0 : ℚ) < 2 ^ k :=
  zpow_pos (by norm_num) k

/-- Integers are compared as the numbers that they stand for when an exponent was split. -/
theorem scaled_le_iff {b : Nat} (hb : 0 < b) {m n : Nat} (k : ℤ) :
    m * b ^ k.toNat ≤ n * b ^ (-k).toNat ↔ (m * b ^ k : ℚ) ≤ n := by
  have hb' : (0 : ℚ) < b := by exact_mod_cast hb
  have hscale : (0 : ℚ) < (b : ℚ) ^ (-k).toNat := by positivity
  rw [← mul_le_mul_iff_of_pos_right hscale, mul_assoc, ← pow_toNat hb'.ne']
  exact_mod_cast Iff.rfl

/-- A quotient between two powers with successive exponents has the lower one as its logarithm. -/
theorem log_eq {b : Nat} (hb : 1 < b) {q : ℚ} {k : ℤ} (hq : 0 < q) (hlow : (b : ℚ) ^ k ≤ q)
    (hhigh : q < (b : ℚ) ^ (k + 1)) : Int.log b q = k := by
  have hle : k ≤ Int.log b q := (Int.zpow_le_iff_le_log hb hq).mp hlow
  have hlt : Int.log b q < k + 1 := (Int.lt_zpow_iff_log_lt hb hq).mp hhigh
  omega

/-! ### The numbers that are read as a double -/

/-- The value of a magnitude. -/
def Dyadic.value (x : Dyadic) : ℚ :=
  x.significand * 2 ^ x.exponent

/-- How far the midpoint to the double below lies below the value, in units of the last place. -/
def Dyadic.stepDown (x : Dyadic) : ℚ :=
  if x.significand = 2 ^ 52 ∧ -1074 < x.exponent then 1 / 4 else 1 / 2

/-- The midpoint to the double below. -/
def Dyadic.low (x : Dyadic) : ℚ :=
  (x.significand - x.stepDown) * 2 ^ x.exponent

/-- The midpoint to the double above. -/
def Dyadic.high (x : Dyadic) : ℚ :=
  (x.significand + 1 / 2) * 2 ^ x.exponent

/-- The numbers that are nearest to a double, with both midpoints if its significand is even. -/
structure Dyadic.Takes (x : Dyadic) (q : ℚ) : Prop where
  low_le : x.low ≤ q
  le_high : q ≤ x.high
  strict : x.significand % 2 = 1 → x.low < q ∧ q < x.high

theorem Dyadic.takes_of_lt {x : Dyadic} {q : ℚ} (hlow : x.low < q) (hhigh : q < x.high) :
    x.Takes q :=
  ⟨hlow.le, hhigh.le, fun _ => ⟨hlow, hhigh⟩⟩

theorem Dyadic.stepDown_pos (x : Dyadic) : 0 < x.stepDown := by
  unfold stepDown
  split <;> norm_num

theorem Dyadic.stepDown_le (x : Dyadic) : x.stepDown ≤ 1 / 2 := by
  unfold stepDown
  split <;> norm_num

theorem Dyadic.low_lt_value (x : Dyadic) : x.low < x.value := by
  have hstep := x.stepDown_pos
  have hpos := two_pow_pos x.exponent
  unfold low value
  gcongr
  linarith

theorem Dyadic.value_lt_high (x : Dyadic) : x.value < x.high := by
  have hpos := two_pow_pos x.exponent
  unfold high value
  gcongr
  linarith

/-- A double takes its own value. -/
theorem Dyadic.takes_value (x : Dyadic) : x.Takes x.value :=
  takes_of_lt x.low_lt_value x.value_lt_high

/-- The magnitude of a double that has the least exponent or a leading bit. -/
structure Dyadic.IsNormal (x : Dyadic) : Prop where
  lt : x.significand < 2 ^ 53
  least : -1074 ≤ x.exponent
  leading : -1074 < x.exponent → 2 ^ 52 ≤ x.significand

theorem Dyadic.isNormal_ofIndex (i : Nat) : (ofIndex i).IsNormal := by
  unfold ofIndex
  simp only [Nat.pow_eq]
  split
  · exact ⟨by dsimp only; omega, by simp, by simp⟩
  · exact ⟨by dsimp only; omega, by dsimp only; omega, by dsimp only; omega⟩

/-- The number of a double is found in its exponent and significand. -/
theorem Dyadic.index_ofIndex (i : Nat) :
    ((ofIndex i).exponent + 1074).toNat * 2 ^ 52 + (ofIndex i).significand = i := by
  unfold ofIndex
  simp only [Nat.pow_eq]
  split
  · simp
  · dsimp only
    omega

/-! ### Rounding to an integer -/

/-- A quotient less than one half away from an integer is rounded to it, and so is one that is one
    half away from an even integer. -/
theorem roundQuotient_eq {num den n : Nat} (hden : 0 < den) (hlow : (n - 1 / 2 : ℚ) ≤ num / den)
    (hhigh : (num / den : ℚ) ≤ n + 1 / 2)
    (hstrict : n % 2 = 1 → (n - 1 / 2 : ℚ) < num / den ∧ (num / den : ℚ) < n + 1 / 2) :
    roundQuotient num den = n := by
  have hpos : (0 : ℚ) < den := by exact_mod_cast hden
  have hdiv : den * (num / den) + num % den = num := Nat.div_add_mod num den
  have hmod : num % den < den := Nat.mod_lt num hden
  unfold roundQuotient
  dsimp only
  set quotient := num / den
  set remainder := num % den
  have hvalue : (num / den : ℚ) = quotient + remainder / den := by
    rw [← hdiv]
    push_cast
    field_simp
  have hfraction : (remainder / den : ℚ) < 1 := by
    rw [div_lt_one hpos]
    exact_mod_cast hmod
  have hnonneg : (0 : ℚ) ≤ remainder / den := by positivity
  have hhalf : (remainder / den : ℚ) < 1 / 2 ↔ 2 * remainder < den := by
    rw [div_lt_div_iff₀ hpos two_pos, one_mul, mul_comm]
    exact_mod_cast Iff.rfl
  have hhalf' : (1 / 2 : ℚ) < remainder / den ↔ den < 2 * remainder := by
    rw [div_lt_div_iff₀ two_pos hpos, one_mul, mul_comm (remainder : ℚ)]
    exact_mod_cast Iff.rfl
  have hle : quotient ≤ n := by
    have h : (quotient : ℚ) < n + 1 := by linarith
    have h : quotient < n + 1 := by exact_mod_cast h
    omega
  have hge : n ≤ quotient + 1 := by
    have h : (n : ℚ) < quotient + 2 := by linarith
    have h : n < quotient + 2 := by exact_mod_cast h
    omega
  obtain rfl | rfl : n = quotient ∨ n = quotient + 1 := by omega
  · have hdown : ¬ den < 2 * remainder := by
      rw [← hhalf']
      linarith
    have hodd : quotient % 2 = 1 → 2 * remainder < den := by
      intro hodd
      rw [← hhalf]
      linarith [(hstrict hodd).2]
    rw [if_neg]
    omega
  · push_cast at hlow hstrict
    have hup : ¬ 2 * remainder < den := by
      rw [← hhalf]
      linarith
    have hodd : (quotient + 1) % 2 = 1 → den < 2 * remainder := by
      intro hodd
      rw [← hhalf']
      linarith [(hstrict hodd).1]
    rw [if_pos]
    omega

/-! ### The exponent -/

/-- The comparison decides between the two exponents that the bit lengths leave. -/
theorem binaryExponent_eq {num den : Nat} (hnum : 0 < num) (hden : 0 < den) :
    binaryExponent num den = max (Int.log 2 (num / den : ℚ) - 52) (-1074) := by
  have hnum' : (0 : ℚ) < num := by exact_mod_cast hnum
  have hden' : (0 : ℚ) < den := by exact_mod_cast hden
  have hquotient : (0 : ℚ) < num / den := by positivity
  have hnumlow : (2 : ℚ) ^ (num.log2 : ℤ) ≤ num := by
    rw [zpow_natCast]
    exact_mod_cast Nat.log2_self_le hnum.ne'
  have hnumhigh : (num : ℚ) < 2 ^ (num.log2 + 1 : ℤ) := by
    exact_mod_cast (Nat.lt_log2_self : num < 2 ^ (num.log2 + 1))
  have hdenlow : (2 : ℚ) ^ (den.log2 : ℤ) ≤ den := by
    rw [zpow_natCast]
    exact_mod_cast Nat.log2_self_le hden.ne'
  have hdenhigh : (den : ℚ) < 2 ^ (den.log2 + 1 : ℤ) := by
    exact_mod_cast (Nat.lt_log2_self : den < 2 ^ (den.log2 + 1))
  have hreaches : ∀ k : ℤ, den * Nat.pow 2 k.toNat ≤ num * Nat.pow 2 (-k).toNat
      ↔ (2 : ℚ) ^ k ≤ num / den := by
    intro k
    have h := scaled_le_iff two_pos (m := den) (n := num) k
    rw [le_div_iff₀ hden', mul_comm ((2 : ℚ) ^ k)]
    exact_mod_cast h
  unfold binaryExponent
  dsimp only
  rw [sub_add_cancel]
  congr 1
  set k : ℤ := num.log2 - den.log2
  split
  · rename_i hle
    rw [hreaches] at hle
    have hhigh : (num / den : ℚ) < 2 ^ (k + 1) := by
      rw [div_lt_iff₀ hden']
      calc (num : ℚ) < 2 ^ (num.log2 + 1 : ℤ) := hnumhigh
        _ = 2 ^ (k + 1) * 2 ^ (den.log2 : ℤ) := by
          rw [← zpow_add₀ two_ne_zero]
          congr 1
          omega
        _ ≤ 2 ^ (k + 1) * den := mul_le_mul_of_nonneg_left hdenlow (two_pow_pos _).le
    have hlog : Int.log 2 (num / den : ℚ) = k := log_eq one_lt_two hquotient hle hhigh
    rw [hlog]
  · rename_i hlt
    rw [hreaches, not_le] at hlt
    have hlow : (2 : ℚ) ^ (k - 1) ≤ num / den := by
      rw [le_div_iff₀ hden']
      calc (2 : ℚ) ^ (k - 1) * den ≤ 2 ^ (k - 1) * 2 ^ (den.log2 + 1 : ℤ) :=
          mul_le_mul_of_nonneg_left hdenhigh.le (two_pow_pos _).le
        _ = 2 ^ (num.log2 : ℤ) := by
          rw [← zpow_add₀ two_ne_zero]
          congr 1
          omega
        _ ≤ num := hnumlow
    have hlog : Int.log 2 (num / den : ℚ) = k - 1 :=
      log_eq one_lt_two hquotient (by exact_mod_cast hlow) (by simpa using hlt)
    rw [hlog]
    omega

/-! ### The double -/

/-- The bit pattern is put together from the exponent and the rounded significand. -/
theorem nearestIndex_eq_min {num den n : Nat} {e : ℤ} (hnum : 0 < num) (hden : 0 < den)
    (he : max (Int.log 2 (num / den : ℚ) - 52) (-1074) = e)
    (hlow : (n - 1 / 2 : ℚ) * 2 ^ e ≤ num / den) (hhigh : (num / den : ℚ) ≤ (n + 1 / 2) * 2 ^ e)
    (hstrict : n % 2 = 1 →
      (n - 1 / 2 : ℚ) * 2 ^ e < num / den ∧ (num / den : ℚ) < (n + 1 / 2) * 2 ^ e) :
    nearestIndex num den = min ((e + 1074).toNat * 2 ^ 52 + n) infinityIndex := by
  have hpos := two_pow_pos e
  have hscaled : ((num * 2 ^ (-e).toNat : ℕ) : ℚ) / (den * 2 ^ e.toNat : ℕ) = num / den / 2 ^ e := by
    have hscale : (0 : ℚ) < 2 ^ (-e).toNat := by positivity
    push_cast
    rw [pow_toNat two_ne_zero e]
    field_simp
  have hround : roundQuotient (num * 2 ^ (-e).toNat) (den * 2 ^ e.toNat) = n := by
    apply roundQuotient_eq (by positivity)
    · rw [hscaled, le_div_iff₀ hpos]
      exact hlow
    · rw [hscaled, div_le_iff₀ hpos]
      exact hhigh
    · rw [hscaled, lt_div_iff₀ hpos, div_lt_iff₀ hpos]
      exact hstrict
  unfold nearestIndex
  rw [if_neg hnum.ne', binaryExponent_eq hnum hden, he]
  dsimp only [Nat.pow_eq]
  rw [hround]

/-- What a double takes lies below the next power of two. -/
theorem Dyadic.Takes.lt_pow {x : Dyadic} {q : ℚ} (h : x.Takes q) (hnormal : x.IsNormal) :
    q < 2 ^ (x.exponent + 53) := by
  have hsignificand : (x.significand + 1 / 2 : ℚ) < 2 ^ 53 := by
    have hlt : x.significand + 1 ≤ 2 ^ 53 := hnormal.lt
    have hlt : (x.significand + 1 : ℚ) ≤ 2 ^ 53 := by exact_mod_cast hlt
    linarith
  calc q ≤ (x.significand + 1 / 2) * 2 ^ x.exponent := h.le_high
    _ < 2 ^ (53 : ℤ) * 2 ^ x.exponent := by
      refine mul_lt_mul_of_pos_right ?_ (two_pow_pos _)
      exact_mod_cast hsignificand
    _ = 2 ^ (x.exponent + 53) := by rw [← zpow_add₀ two_ne_zero, add_comm]

/-- Only the first double of a binade takes numbers of the binade below, and only from the last
    half unit of that one. -/
theorem Dyadic.Takes.first_of_lt {x : Dyadic} {q : ℚ} (h : x.Takes q) (hnormal : x.IsNormal)
    (habove : -1074 < x.exponent) (hshort : q < 2 ^ (x.exponent + 52)) :
    x.significand = 2 ^ 52 ∧ ((2 ^ 53 : ℕ) - 1 / 2 : ℚ) * 2 ^ (x.exponent - 1) ≤ q := by
  have hfirst : x.significand = 2 ^ 52 := by
    by_contra hne
    have hleading := hnormal.leading habove
    have hge : (2 ^ 52 + 1 : ℚ) ≤ x.significand := by
      exact_mod_cast (by omega : 2 ^ 52 + 1 ≤ x.significand)
    have hreaches : (2 : ℚ) ^ (x.exponent + 52) < q := by
      calc (2 : ℚ) ^ (x.exponent + 52) = 2 ^ 52 * 2 ^ x.exponent := by
            rw [add_comm, zpow_add₀ two_ne_zero]
            norm_cast
        _ < (x.significand - x.stepDown) * 2 ^ x.exponent := by
          refine mul_lt_mul_of_pos_right ?_ (two_pow_pos _)
          linarith [x.stepDown_le]
        _ ≤ q := h.low_le
    linarith
  have hstep : x.stepDown = 1 / 4 := if_pos ⟨hfirst, habove⟩
  have hhalf : (2 : ℚ) ^ x.exponent = 2 * 2 ^ (x.exponent - 1) := by
    rw [← zpow_one_add₀ two_ne_zero]
    congr 1
    omega
  have hle := h.low_le
  rw [Dyadic.low, hstep, hfirst, hhalf] at hle
  push_cast at hle ⊢
  exact ⟨hfirst, by linarith⟩

/-- A quotient that a double takes is read as that double. -/
theorem nearestIndex_eq {i num den : Nat} (hi : i < infinityIndex) (hnum : 0 < num)
    (hden : 0 < den) (h : (Dyadic.ofIndex i).Takes (num / den)) : nearestIndex num den = i := by
  have hnormal := Dyadic.isNormal_ofIndex i
  have hindex := Dyadic.index_ofIndex i
  have hleast := hnormal.least
  set x := Dyadic.ofIndex i
  set q : ℚ := num / den with hq
  have hpos := two_pow_pos x.exponent
  have hqpos : 0 < q := by positivity
  have hlog : ∀ k : ℤ, k ≤ Int.log 2 q ↔ (2 : ℚ) ^ k ≤ q := fun k =>
    mod_cast (Int.zpow_le_iff_le_log one_lt_two hqpos).symm
  have hbelow : ¬ x.exponent + 53 ≤ Int.log 2 q := by
    rw [hlog, not_le]
    exact h.lt_pow hnormal
  by_cases hsame : x.exponent = -1074 ∨ x.exponent + 52 ≤ Int.log 2 q
  · have hexponent : max (Int.log 2 q - 52) (-1074) = x.exponent := by omega
    have hlow : (x.significand - 1 / 2 : ℚ) * 2 ^ x.exponent ≤ x.low := by
      refine mul_le_mul_of_nonneg_right ?_ hpos.le
      linarith [x.stepDown_le]
    rw [nearestIndex_eq_min hnum hden hexponent (hlow.trans h.low_le) h.le_high
      fun hodd => ⟨hlow.trans_lt (h.strict hodd).1, (h.strict hodd).2⟩, hindex]
    exact min_eq_left hi.le
  · -- the quotient has the exponent of the binade below, and its rounding carries
    obtain ⟨hbottom, hshort⟩ := not_or.mp hsame
    rw [hlog, not_le] at hshort
    obtain ⟨hfirst, hlow⟩ := h.first_of_lt hnormal (by omega) hshort
    have hhigh : q < ((2 ^ 53 : ℕ) : ℚ) * 2 ^ (x.exponent - 1) := by
      calc q < 2 ^ (x.exponent + 52) := hshort
        _ = 2 ^ (53 : ℤ) * 2 ^ (x.exponent - 1) := by
          rw [← zpow_add₀ two_ne_zero]
          congr 1
          omega
        _ = ((2 ^ 53 : ℕ) : ℚ) * 2 ^ (x.exponent - 1) := by norm_cast
    have hlast : x.exponent + 51 ≤ Int.log 2 q := by
      rw [hlog]
      calc (2 : ℚ) ^ (x.exponent + 51) = 2 ^ (52 : ℤ) * 2 ^ (x.exponent - 1) := by
            rw [← zpow_add₀ two_ne_zero]
            congr 1
            omega
        _ ≤ ((2 ^ 53 : ℕ) - 1 / 2 : ℚ) * 2 ^ (x.exponent - 1) := by
          refine mul_le_mul_of_nonneg_right ?_ (two_pow_pos _).le
          norm_num
        _ ≤ q := hlow
    rw [← not_le, ← hlog] at hshort
    have hexponent : max (Int.log 2 q - 52) (-1074) = x.exponent - 1 := by omega
    have hup : ((2 ^ 53 : ℕ) : ℚ) * 2 ^ (x.exponent - 1)
        ≤ ((2 ^ 53 : ℕ) + 1 / 2 : ℚ) * 2 ^ (x.exponent - 1) := by
      refine mul_le_mul_of_nonneg_right ?_ (two_pow_pos _).le
      linarith
    rw [nearestIndex_eq_min hnum hden hexponent hlow (hhigh.le.trans hup)
      fun hodd => absurd hodd (by decide)]
    rw [hfirst] at hindex
    omega

end Treewalk.Decimal
