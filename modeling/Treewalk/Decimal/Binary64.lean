/-!
# Binary64 numbers as integers times powers of two

**A finite double is an integer times a power of two, so every question about its text is one
about integers.**  This file takes a double apart into sign, significand and exponent, names
the interval of reals that round to it, and says which doubles are integers.

The doubles without their sign bit are numbered in order of size: the number of a finite
double is `(exponent + 1074) · 2 ^ 52 + significand` as long as the significand is taken
without its leading bit in all but the lowest binade.  `Dyadic.ofIndex` reads that numbering.
-/

namespace Treewalk.Decimal

/-! ### Magnitudes -/

/-- The finite magnitude `significand · 2 ^ exponent`. -/
structure Dyadic where
  significand : Nat
  exponent : Int
deriving DecidableEq, Repr

/-- The bit pattern of the first double that is not finite, without its sign. -/
def infinityIndex : Nat := 0x7ff0000000000000

/-- The magnitude whose bit pattern, without the sign, is `index`.  The lowest binade has no
    leading bit; every other significand has bit 52 set. -/
def Dyadic.ofIndex (index : Nat) : Dyadic :=
  if index / Nat.pow 2 52 = 0 then
    ⟨index, -1074⟩
  else
    ⟨Nat.pow 2 52 + index % Nat.pow 2 52, (index / Nat.pow 2 52 : Nat) - 1075⟩

/-- The value as a natural number, if it is one. -/
def Dyadic.toNat? (x : Dyadic) : Option Nat :=
  if 0 ≤ x.exponent then
    some (x.significand * Nat.pow 2 x.exponent.toNat)
  else if x.significand % Nat.pow 2 (-x.exponent).toNat = 0 then
    some (x.significand / Nat.pow 2 (-x.exponent).toNat)
  else
    none

/-! ### Classes of doubles -/

/-- What a double is: no number, an infinity, or a sign and a magnitude. -/
inductive Shape where
  | nan
  | infinite (negative : Bool)
  | finite (negative : Bool) (magnitude : Dyadic)
deriving DecidableEq, Repr

/-- The shape of the double with this bit pattern. -/
def Shape.ofBits (bits : Nat) : Shape :=
  let negative := decide (Nat.pow 2 63 ≤ bits)
  let index := bits % Nat.pow 2 63
  if index < infinityIndex then
    .finite negative (Dyadic.ofIndex index)
  else if index = infinityIndex then
    .infinite negative
  else
    .nan

/-- The shape of a double. -/
def Shape.ofFloat (x : Float) : Shape :=
  .ofBits x.toBits.toNat

/-! ### Rounding intervals

The reals that round to a double reach half way to its neighbours.  The neighbour below is
only half as far away when the double is the first of its binade, except at the bottom, where
two binades share one spacing.  The ends round to the double exactly when its significand is
even, because a tie goes to the even neighbour. -/

/-- The reals that round to one double, as integers over one denominator. -/
structure Interval where
  low : Nat
  value : Nat
  high : Nat
  denominator : Nat
  closed : Bool
deriving DecidableEq, Repr

/-- The reals that round to `x`; a quarter of the spacing above `x` is the unit. -/
def Dyadic.interval (x : Dyadic) : Interval :=
  let unit := Nat.pow 2 (x.exponent - 2).toNat
  let below := if x.significand = Nat.pow 2 52 ∧ -1074 < x.exponent then 1 else 2
  { low := (4 * x.significand - below) * unit
    value := 4 * x.significand * unit
    high := (4 * x.significand + 2) * unit
    denominator := Nat.pow 2 (2 - x.exponent).toNat
    closed := decide (x.significand % 2 = 0) }

end Treewalk.Decimal
