import Treewalk.Decimal.Shortest
import Treewalk.Proofs.Decimal.Rounding

/-!
# The fewest digits read back

**The decimal that is written for a double is one that the double takes.**  The search for it goes
down from the leading digit and takes the first grid that has a point among the numbers that are
read as the double.  On the seventeenth grid there always is one: seventeen digits are so many that
the points stand closer than the two midpoints around the double, wherever its value lies between
two points.
-/

namespace Treewalk

/-- The value of a decimal. -/
def Decimal.value (d : Decimal) : ℚ :=
  d.coefficient * 10 ^ d.exponent

namespace Decimal

/-! ### The interval -/

section Scaling

variable {a c : Nat} {j k : ℤ}

theorem cast_binary (a : Nat) (j k : ℤ) : ((a * 2 ^ j.toNat * 10 ^ (-k).toNat : ℕ) : ℚ)
    = a * 2 ^ j * (2 ^ (-j).toNat * 10 ^ (-k).toNat) := by
  push_cast
  rw [pow_toNat two_ne_zero j]
  ring

theorem cast_decimal (c : Nat) (j k : ℤ) : ((c * 10 ^ k.toNat * 2 ^ (-j).toNat : ℕ) : ℚ)
    = c * 10 ^ k * (2 ^ (-j).toNat * 10 ^ (-k).toNat) := by
  push_cast
  rw [pow_toNat (by norm_num : (10 : ℚ) ≠ 0) k]
  ring

theorem scale_pos (j k : ℤ) : (0 : ℚ) < 2 ^ (-j).toNat * 10 ^ (-k).toNat := by
  positivity

theorem binary_le_decimal : a * 2 ^ j.toNat * 10 ^ (-k).toNat ≤ c * 10 ^ k.toNat * 2 ^ (-j).toNat
    ↔ (a * 2 ^ j : ℚ) ≤ c * 10 ^ k := by
  rw [← Nat.cast_le (α := ℚ), cast_binary, cast_decimal, mul_le_mul_iff_of_pos_right (scale_pos j k)]

theorem decimal_le_binary : c * 10 ^ k.toNat * 2 ^ (-j).toNat ≤ a * 2 ^ j.toNat * 10 ^ (-k).toNat
    ↔ (c * 10 ^ k : ℚ) ≤ a * 2 ^ j := by
  rw [← Nat.cast_le (α := ℚ), cast_binary, cast_decimal, mul_le_mul_iff_of_pos_right (scale_pos j k)]

theorem binary_lt_decimal : a * 2 ^ j.toNat * 10 ^ (-k).toNat < c * 10 ^ k.toNat * 2 ^ (-j).toNat
    ↔ (a * 2 ^ j : ℚ) < c * 10 ^ k := by
  rw [← not_le, decimal_le_binary, not_le]

theorem decimal_lt_binary : c * 10 ^ k.toNat * 2 ^ (-j).toNat < a * 2 ^ j.toNat * 10 ^ (-k).toNat
    ↔ (c * 10 ^ k : ℚ) < a * 2 ^ j := by
  rw [← not_le, binary_le_decimal, not_le]

end Scaling

/-- The midpoint to the double below is a number of quarters of a unit. -/
theorem Dyadic.low_eq {x : Dyadic} (hx : 0 < x.significand) :
    x.low = ((4 * x.significand - if x.significand = 2 ^ 52 ∧ -1074 < x.exponent then 1 else 2 : ℕ) : ℚ)
        * 2 ^ (x.exponent - 2) := by
  have hquarter : (2 : ℚ) ^ x.exponent = 4 * 2 ^ (x.exponent - 2) := by
    rw [zpow_sub₀ two_ne_zero]
    norm_num
    ring
  rw [Dyadic.low, hquarter]
  unfold Dyadic.stepDown
  split
  · rw [Nat.cast_sub (by omega)]
    push_cast
    ring
  · rw [Nat.cast_sub (by omega)]
    push_cast
    ring

theorem Dyadic.high_eq (x : Dyadic) :
    x.high = ((4 * x.significand + 2 : ℕ) : ℚ) * 2 ^ (x.exponent - 2) := by
  have hquarter : (2 : ℚ) ^ x.exponent = 4 * 2 ^ (x.exponent - 2) := by
    rw [zpow_sub₀ two_ne_zero]
    norm_num
    ring
  rw [Dyadic.high, hquarter]
  push_cast
  ring

/-- The interval of a double contains the decimals that it takes. -/
theorem contains_interval_iff {x : Dyadic} (hx : 0 < x.significand) (d : Decimal) :
    x.interval.contains d = true ↔ x.Takes d.value := by
  have hexponent : 2 - x.exponent = -(x.exponent - 2) := by omega
  have htakes : x.Takes d.value ↔ x.low ≤ d.value ∧ d.value ≤ x.high
      ∧ (x.significand % 2 = 1 → x.low < d.value ∧ d.value < x.high) :=
    ⟨fun h => ⟨h.low_le, h.le_high, h.strict⟩, fun ⟨hlow, hhigh, hstrict⟩ => ⟨hlow, hhigh, hstrict⟩⟩
  rw [htakes, Dyadic.low_eq hx, Dyadic.high_eq]
  unfold Dyadic.interval Interval.contains
  simp only [Nat.pow_eq, hexponent, decide_eq_true_eq]
  split
  · rename_i heven
    rw [decide_eq_true_eq, binary_le_decimal, decimal_le_binary]
    constructor
    · intro ⟨hlow, hhigh⟩
      exact ⟨hlow, hhigh, by omega⟩
    · intro ⟨hlow, hhigh, _⟩
      exact ⟨hlow, hhigh⟩
  · rename_i hodd
    have hodd : x.significand % 2 = 1 := by omega
    rw [decide_eq_true_eq, binary_lt_decimal, decimal_lt_binary]
    constructor
    · intro ⟨hlow, hhigh⟩
      exact ⟨hlow.le, hhigh.le, fun _ => ⟨hlow, hhigh⟩⟩
    · intro ⟨_, _, hstrict⟩
      exact hstrict hodd

/-! ### The grids -/

theorem lt_pow_digitCount (n : Nat) : n < 10 ^ digitCount n :=
  (Nat.length_toDigits_le_iff (by norm_num) Nat.length_toDigits_pos).mp le_rfl

theorem pow_digitCount_le {n : Nat} (hn : 0 < n) : 10 ^ (digitCount n - 1) ≤ n := by
  rcases Nat.eq_zero_or_pos (digitCount n - 1) with hzero | hpos
  · rw [hzero]
    exact hn
  · by_contra hlt
    have hle : digitCount n ≤ digitCount n - 1 :=
      (Nat.length_toDigits_le_iff (by norm_num) hpos).mpr (not_le.mp hlt)
    omega

/-- The first grid is that of the leading digit. -/
theorem leadingExponent_le {num den : Nat} (hnum : 0 < num) (hden : 0 < den) :
    (10 : ℚ) ^ leadingExponent num den ≤ num / den := by
  have hden' : (0 : ℚ) < den := by exact_mod_cast hden
  unfold leadingExponent
  split
  · rename_i hle
    have hquotient : 0 < num / den := Nat.div_pos hle hden
    have hdigits : 0 < digitCount (num / den) := Nat.length_toDigits_pos
    have hexponent : (digitCount (num / den) - 1 : ℤ) = (digitCount (num / den) - 1 : ℕ) := by omega
    rw [hexponent, zpow_natCast]
    calc (10 : ℚ) ^ (digitCount (num / den) - 1) ≤ (num / den : ℕ) := by
          exact_mod_cast pow_digitCount_le hquotient
      _ ≤ num / den := by
          rw [le_div_iff₀ hden']
          exact_mod_cast Nat.div_mul_le_self num den
  · have hlt := lt_pow_digitCount ((den - 1) / num)
    have hrest := Nat.lt_div_mul_add hnum (a := den - 1)
    have hle : den ≤ num * 10 ^ digitCount ((den - 1) / num) := by
      calc den ≤ num * ((den - 1) / num + 1) := by
            rw [Nat.mul_add, Nat.mul_comm]
            omega
        _ ≤ num * 10 ^ digitCount ((den - 1) / num) := Nat.mul_le_mul_left _ hlt
    rw [zpow_neg, zpow_natCast, inv_le_iff_one_le_mul₀ (by positivity), div_mul_eq_mul_div,
      one_le_div hden']
    exact_mod_cast hle

theorem Dyadic.value_eq (x : Dyadic) :
    x.value = ((4 * x.significand : ℕ) : ℚ) * 2 ^ (x.exponent - 2) := by
  unfold Dyadic.value
  rw [zpow_sub₀ two_ne_zero]
  push_cast
  ring

theorem value_div_denominator (x : Dyadic) :
    (x.interval.value / x.interval.denominator : ℚ) = x.value := by
  have hexponent : 2 - x.exponent = -(x.exponent - 2) := by omega
  have hscale : (0 : ℚ) < 2 ^ (-(x.exponent - 2)).toNat := by positivity
  rw [Dyadic.value_eq]
  unfold Dyadic.interval
  simp only [Nat.pow_eq, hexponent]
  push_cast
  rw [pow_toNat two_ne_zero, ← mul_assoc, mul_div_assoc, div_self hscale.ne', mul_one]

/-- The point of a grid below a value, and the one above. -/
theorem floor_bounds (x : Dyadic) (k : ℤ) :
    x.interval.floor k * 10 ^ k ≤ x.value ∧ x.value < (x.interval.floor k + 1 : ℕ) * 10 ^ k := by
  have hexponent : 2 - x.exponent = -(x.exponent - 2) := by omega
  rw [Dyadic.value_eq, ← decimal_le_binary, ← binary_lt_decimal]
  unfold Interval.floor Dyadic.interval
  simp only [Nat.pow_eq, hexponent, mul_assoc]
  constructor
  · exact Nat.div_mul_le_self _ _
  · rw [Nat.add_mul, Nat.one_mul]
    exact Nat.lt_div_mul_add (by positivity)

/-- A grid as narrow as the two midpoints has a point among the numbers that the double takes. -/
theorem nearest?_isSome {x : Dyadic} (hx : 0 < x.significand) (tie : Tie) {k : ℤ}
    (hk : (10 : ℚ) ^ k < (x.stepDown + 1 / 2) * 2 ^ x.exponent) :
    (x.interval.nearest? tie k).isSome := by
  obtain ⟨hbelow, habove⟩ := floor_bounds x k
  set c := x.interval.floor k with hc
  have hone : x.interval.contains ⟨c, k⟩ = true ∨ x.interval.contains ⟨c + 1, k⟩ = true := by
    rw [contains_interval_iff hx, contains_interval_iff hx]
    by_contra hnone
    obtain ⟨hlower, hupper⟩ := not_or.mp hnone
    have hlow : c * 10 ^ k ≤ x.low :=
      not_lt.mp fun hlt => hlower (Dyadic.takes_of_lt hlt (hbelow.trans_lt x.value_lt_high))
    have hhigh : x.high ≤ (c + 1 : ℕ) * 10 ^ k :=
      not_lt.mp fun hlt => hupper (Dyadic.takes_of_lt (x.low_lt_value.trans habove) hlt)
    have hwidth : x.high = x.low + (x.stepDown + 1 / 2) * 2 ^ x.exponent := by
      unfold Dyadic.high Dyadic.low
      ring
    push_cast at hhigh
    linarith
  unfold Interval.nearest?
  simp only [← hc]
  rcases hone with hone | hone
  · rw [hone]
    cases x.interval.contains ⟨c + 1, k⟩ <;> rfl
  · rw [hone]
    cases x.interval.contains ⟨c, k⟩ <;> rfl

theorem contains_of_nearest? {i : Interval} {tie : Tie} {k : ℤ} {c : Nat}
    (h : i.nearest? tie k = some c) : i.contains ⟨c, k⟩ = true := by
  unfold Interval.nearest? at h
  dsimp only at h
  split at h
  · cases h
    split <;> assumption
  · cases h
    assumption
  · cases h
    assumption
  · cases h

/-- Seventeen digits are enough. -/
theorem seventeenth_grid {x : Dyadic} (hnormal : x.IsNormal) (hx : 0 < x.significand) :
    (10 : ℚ) ^ (leadingExponent x.interval.value x.interval.denominator - 16)
      < (x.stepDown + 1 / 2) * 2 ^ x.exponent := by
  have hpos : 0 < x.interval.value ∧ 0 < x.interval.denominator := by
    unfold Dyadic.interval
    simp only [Nat.pow_eq]
    constructor <;> positivity
  have hleading := leadingExponent_le hpos.1 hpos.2
  rw [value_div_denominator, Dyadic.value] at hleading
  have hsignificand : (x.significand : ℚ) < (x.stepDown + 1 / 2) * 10 ^ 16 := by
    unfold Dyadic.stepDown
    split
    · rename_i hfirst
      rw [hfirst.1]
      norm_num
    · have hlt : (x.significand : ℚ) < 2 ^ 53 := by exact_mod_cast hnormal.lt
      linarith
  calc (10 : ℚ) ^ (leadingExponent x.interval.value x.interval.denominator - 16)
      = 10 ^ leadingExponent x.interval.value x.interval.denominator / 10 ^ 16 := by
        rw [zpow_sub₀ (by norm_num)]
        norm_cast
    _ ≤ x.significand * 2 ^ x.exponent / 10 ^ 16 := by gcongr
    _ < (x.stepDown + 1 / 2) * 10 ^ 16 * 2 ^ x.exponent / 10 ^ 16 := by
      have hscale := two_pow_pos x.exponent
      gcongr
    _ = (x.stepDown + 1 / 2) * 2 ^ x.exponent := by ring

/-! ### The search -/

theorem value_ofGrid (c : Nat) (k : ℤ) : (ofGrid c k).value = c * 10 ^ k := by
  unfold ofGrid value
  split
  · rename_i hc
    rw [hc, zpow_add_one₀ (by norm_num)]
    push_cast
    ring
  · rfl

/-- A search that meets a grid with a point in the interval ends at such a point. -/
theorem search_spec {i : Interval} {tie : Tie} {grids : Nat} {k : ℤ}
    (h : ∃ j : Nat, j < grids ∧ (i.nearest? tie (k - j)).isSome) :
    ∃ c j, i.contains ⟨c, j⟩ = true ∧ k - grids < j ∧ i.search tie grids k = ofGrid c j := by
  induction grids generalizing k with
  | zero =>
    obtain ⟨j, hj, -⟩ := h
    omega
  | succ grids ih =>
    unfold Interval.search
    split
    · rename_i c hc
      exact ⟨c, k, contains_of_nearest? hc, by omega, rfl⟩
    · rename_i hnone
      obtain ⟨j, hj, hsome⟩ := h
      rcases j with _ | j
      · simp [hnone] at hsome
      · obtain ⟨c, m, hcontains, hm, hsearch⟩ := ih (k := k - 1) ⟨j, by omega, by
          convert hsome using 3
          push_cast
          ring⟩
        exact ⟨c, m, hcontains, by omega, hsearch⟩

/-- The decimal that is written is one that the double takes, and has at most seventeen digits. -/
theorem shortest_spec {x : Dyadic} (hnormal : x.IsNormal) (hx : 0 < x.significand) (tie : Tie) :
    x.Takes (shortest tie x).value
      ∧ leadingExponent x.interval.value x.interval.denominator - 16 ≤ (shortest tie x).exponent := by
  have hgrid := nearest?_isSome hx tie (seventeenth_grid hnormal hx)
  have hmeets : ∃ j : Nat, j < 17 ∧ (x.interval.nearest? tie
      (leadingExponent x.interval.value x.interval.denominator - j)).isSome := ⟨16, by omega, hgrid⟩
  obtain ⟨c, k, hcontains, hk, hsearch⟩ := search_spec hmeets
  unfold shortest
  rw [if_neg hx.ne', hsearch]
  constructor
  · rw [value_ofGrid]
    exact (contains_interval_iff hx ⟨c, k⟩).mp hcontains
  · unfold ofGrid
    split <;> dsimp only <;> omega

end Decimal

end Treewalk
