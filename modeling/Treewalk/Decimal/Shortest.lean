import Treewalk.Decimal.Binary64

/-!
# The fewest digits that read back

**Of the decimals that round to a double, the one with the fewest digits is written, and of
those the nearest.**  The search walks the decimal grids from the leading digit of the value
downwards.  On each grid only the two neighbours of the value can be the answer: if any point
of the grid rounds to the double, one of them does.  All comparisons are between integers.

Two neighbours can be equally near.  Which of them is taken is left to the caller, since the
formats built on this search differ there.
-/

namespace Treewalk

/-- The decimal `coefficient · 10 ^ exponent`. -/
structure Decimal where
  coefficient : Nat
  exponent : Int
deriving DecidableEq, Repr

namespace Decimal

/-- What to do with two equally near candidates. -/
inductive Tie where
  | up
  | toEven
deriving DecidableEq, Repr

/-! ### Candidates on one grid -/

/-- Does `coefficient · 10 ^ exponent` lie in the interval? -/
def Interval.contains (i : Interval) (d : Decimal) : Bool :=
  let scale := Nat.pow 10 (-d.exponent).toNat
  let point := d.coefficient * Nat.pow 10 d.exponent.toNat * i.denominator
  if i.closed then
    decide (i.low * scale ≤ point ∧ point ≤ i.high * scale)
  else
    decide (i.low * scale < point ∧ point < i.high * scale)

/-- The largest multiple of `10 ^ exponent` that is not above the value of the interval. -/
def Interval.floor (i : Interval) (exponent : Int) : Nat :=
  i.value * Nat.pow 10 (-exponent).toNat / (Nat.pow 10 exponent.toNat * i.denominator)

/-- Is the multiple above the value the one to take?  Decided by comparing twice the value with
    the sum of its neighbours `c` and `c + 1`. -/
def Interval.roundsUp (i : Interval) (tie : Tie) (exponent : Int) (c : Nat) : Bool :=
  let twice := 2 * i.value * Nat.pow 10 (-exponent).toNat
  let sum := (2 * c + 1) * (Nat.pow 10 exponent.toNat * i.denominator)
  if twice = sum then
    match tie with
    | .up => true
    | .toEven => c % 2 = 1
  else
    decide (sum < twice)

/-- The nearest multiple of `10 ^ exponent` inside the interval, if one of the neighbours of
    its value lies there. -/
def Interval.nearest? (i : Interval) (tie : Tie) (exponent : Int) : Option Nat :=
  let c := i.floor exponent
  match i.contains ⟨c, exponent⟩, i.contains ⟨c + 1, exponent⟩ with
  | true, true => some (if i.roundsUp tie exponent c then c + 1 else c)
  | true, false => some c
  | false, true => some (c + 1)
  | false, false => none

/-! ### The search -/

/-- The number of decimal digits of `n`; zero has one. -/
def digitCount (n : Nat) : Nat :=
  (Nat.toDigits 10 n).length

/-- The exponent of the leading digit of the positive quotient `num / den`. -/
def leadingExponent (num den : Nat) : Int :=
  if den ≤ num then
    digitCount (num / den) - 1
  else
    -digitCount ((den - 1) / num)

/-- A multiple of a power of ten.  On the first grid the upper neighbour of nine units is ten
    of them, which is one unit of the grid above. -/
def ofGrid (c : Nat) (exponent : Int) : Decimal :=
  if c = 10 then ⟨1, exponent + 1⟩ else ⟨c, exponent⟩

/-- The first hit on the grids `exponent`, `exponent - 1`, …, of which `grids` are tried.
    Seventeen always suffice. -/
def Interval.search (i : Interval) (tie : Tie) : (grids : Nat) → (exponent : Int) → Decimal
  | 0, exponent => ofGrid (i.floor exponent) exponent
  | grids + 1, exponent =>
    match i.nearest? tie exponent with
    | some c => ofGrid c exponent
    | none => i.search tie grids (exponent - 1)

/-- The decimal with the fewest digits that rounds to `x`, and of those the nearest. -/
def shortest (tie : Tie) (x : Dyadic) : Decimal :=
  if x.significand = 0 then
    ⟨0, 0⟩
  else
    let i := x.interval
    i.search tie 17 (leadingExponent i.value i.denominator)

end Decimal

end Treewalk
