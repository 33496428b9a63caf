import Treewalk.Decimal.Shortest

/-!
# The texts of numbers

**One double has four texts, which differ in three decisions.**  A value that is printed, a
literal in a printed tree, a literal in a token listing and a number in a data dump all start
from the exact digits of an integer or from the shortest digits that read back.  They differ
in which of the two an integer gets, in whether `.0` follows it, and in whether large and
small numbers take an exponent.
-/

namespace Treewalk.Decimal

/-! ### Digits and points -/

/-- Positional digits without an exponent: `1500`, `1.5`, `0.015`. -/
def positional (d : Decimal) : List Char :=
  let digits := Nat.toDigits 10 d.coefficient
  if 0 ≤ d.exponent then
    digits ++ List.replicate d.exponent.toNat '0'
  else
    let places := (-d.exponent).toNat
    if places < digits.length then
      let whole := digits.length - places
      digits.take whole ++ '.' :: digits.drop whole
    else
      '0' :: '.' :: (List.replicate (places - digits.length) '0' ++ digits)

/-- Scientific digits with a sign on a positive exponent: `1e-6`, `1.5e+22`. -/
def scientific (d : Decimal) : List Char :=
  let digits := Nat.toDigits 10 d.coefficient
  let exponent : Int := d.exponent + digits.length - 1
  let mantissa :=
    match digits with
    | first :: second :: rest => first :: '.' :: second :: rest
    | _ => digits
  let power :=
    if 0 ≤ exponent then '+' :: Nat.toDigits 10 exponent.toNat
    else '-' :: Nat.toDigits 10 (-exponent).toNat
  mantissa ++ 'e' :: power

/-- Writes the sign in front of digits. -/
def signed (negative : Bool) (digits : List Char) : String :=
  .ofList (if negative then '-' :: digits else digits)

/-- Writes the two infinities, and what is no number, by name. -/
def named (x : Float) (finite : (negative : Bool) → Dyadic → String) : String :=
  match Shape.ofFloat x with
  | .nan => "NaN"
  | .infinite negative => signed negative "inf".toList
  | .finite negative magnitude => finite negative magnitude

/-! ### The four texts -/

/-- The text of a number that is printed: all digits of an integer, the shortest digits of
    any other number, never an exponent. -/
def valueText (x : Float) : String :=
  named x fun negative magnitude =>
    match magnitude.toNat? with
    | some n => signed negative (Nat.toDigits 10 n)
    | none => signed negative (positional (shortest .up magnitude))

/-- The text of a number literal in a printed tree: as `valueText`, but an integer is followed
    by `.0`. -/
def literalText (x : Float) : String :=
  named x fun negative magnitude =>
    match magnitude.toNat? with
    | some n => signed negative (Nat.toDigits 10 n ++ ".0".toList)
    | none => signed negative (positional (shortest .up magnitude))

/-- The text of a number literal in a token listing: an integer below `2 ^ 63` in all its
    digits, followed by `.0` and without the sign of zero; any other number by its shortest
    digits, filled up with zeros. -/
def tokenText (x : Float) : String :=
  named x fun negative magnitude =>
    match magnitude.toNat? with
    | some n =>
      if n < Nat.pow 2 63 then
        signed (negative && n != 0) (Nat.toDigits 10 n ++ ".0".toList)
      else
        signed negative (positional (shortest .up magnitude))
    | none => signed negative (positional (shortest .up magnitude))

/-- The text of a number in a data dump: the shortest digits, positional with at least one
    decimal while the leading digit stands between `10 ^ -5` and `10 ^ 15`, with an exponent
    beyond.  There is no text for what is not finite. -/
def dataText? (x : Float) : Option String :=
  match Shape.ofFloat x with
  | .finite negative magnitude =>
    let d := shortest .toEven magnitude
    let leading : Int := d.exponent + digitCount d.coefficient - 1
    if -5 ≤ leading ∧ leading ≤ 15 then
      let digits := positional d
      some (signed negative (if 0 ≤ d.exponent then digits ++ ".0".toList else digits))
    else
      some (signed negative (scientific d))
  | _ => none

end Treewalk.Decimal
