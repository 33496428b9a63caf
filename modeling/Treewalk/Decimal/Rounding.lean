import Treewalk.Decimal.Binary64

/-!
# The double nearest to a quotient

**A decimal numeral denotes a quotient of integers, and is read as the double nearest to it.**
A tie goes to the even significand.  The result is computed as a bit pattern: the exponent is
chosen so that the rounded quotient has 53 bits, or as many as the lowest binade leaves, and a
significand that rounds up to the next power of two carries into the exponent field, which is
just what the numbering of the doubles wants.
-/

namespace Treewalk.Decimal

/-- The integer nearest to `num / den`; a half goes to the even neighbour. -/
def roundQuotient (num den : Nat) : Nat :=
  let quotient := num / den
  let twice := 2 * (num % den)
  if den < twice ∨ twice = den ∧ quotient % 2 = 1 then quotient + 1 else quotient

/-- The exponent at which `num / den` has a significand of 53 bits, but at least that of the
    lowest binade.  The bit lengths fix it up to one; the comparison decides. -/
def binaryExponent (num den : Nat) : Int :=
  let guess : Int := (num.log2 : Int) - den.log2 - 52
  let reaches := den * Nat.pow 2 (guess + 52).toNat ≤ num * Nat.pow 2 (-(guess + 52)).toNat
  max (if reaches then guess else guess - 1) (-1074)

/-- The bit pattern of the double nearest to `num / den`. -/
def nearestIndex (num den : Nat) : Nat :=
  if num = 0 then
    0
  else
    let exponent := binaryExponent num den
    let significand :=
      roundQuotient (num * Nat.pow 2 (-exponent).toNat) (den * Nat.pow 2 exponent.toNat)
    min ((exponent + 1074).toNat * Nat.pow 2 52 + significand) infinityIndex

/-- The double nearest to `num / den`. -/
def nearest (num den : Nat) : Float :=
  .ofBits (.ofNat (nearestIndex num den))

/-- The natural number written by decimal digits. -/
def ofDigits (digits : List Char) : Nat :=
  digits.foldl (fun n c => 10 * n + (c.toNat - '0'.toNat)) 0

/-- The double nearest to the numeral with these digits before and after the point. -/
def ofNumeral (whole fraction : List Char) : Float :=
  nearest (ofDigits (whole ++ fraction)) (Nat.pow 10 fraction.length)

end Treewalk.Decimal
