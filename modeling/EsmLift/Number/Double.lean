/-!
# `Number.Double` — finite double-precision numbers, exactly

A finite double is a whole number of **units**, where one unit is the smallest positive double
`2 ^ -1074`. Equality and comparison with whole numbers are then plain integer arithmetic.

## Contents

* `Double`, its signed size `Double.signed`, and the size `Double.ofWhole` of a whole number;
* `Double.nearest`: the multiple of the local spacing nearest to a quotient, ties to the even multiple;
* `Double.ofDecimal?`: the double nearest to `digits * 10 ^ exponent`.
-/

namespace EsmLift

/-- A finite double: a sign and a number of units of `2 ^ -1074`. The sign tells the two zeros apart. -/
structure Double where
  negative : Bool
  units : Nat
  deriving DecidableEq, Repr, Inhabited

namespace Double

/-- The number of units in one. -/
def unitsPerOne : Nat := Nat.pow 2 1074

/-- The value in units, with its sign; both zeros have value `0`. -/
def signed (d : Double) : Int :=
  if d.negative then -(d.units : Int) else d.units

/-- The value of a whole number in units. -/
def ofWhole (i : Int) : Int := i * unitsPerOne

/-- The whole number that a double stands for, if it has no fractional part. -/
def toWhole? (d : Double) : Option Int :=
  if d.units % unitsPerOne = 0 then
    let whole : Int := (d.units / unitsPerOne : Nat)
    some (if d.negative then -whole else whole)
  else none

/-- A quotient rounded to the nearest whole number, a half going to the even neighbour. -/
def roundDiv (num den : Nat) : Nat :=
  let q := num / den
  let r := num % den
  if 2 * r < den then q
  else if den < 2 * r then q + 1
  else q + q % 2

/-- The exponent of the spacing of doubles at a given size: 53 significant bits are kept. -/
def spacingExponent (units : Nat) : Nat := units.log2 - 52

/-- The double size nearest to `num / den` units. -/
def nearest (num den : Nat) : Nat :=
  let e := spacingExponent (num / den)
  roundDiv num (den * Nat.pow 2 e) * Nat.pow 2 e

/-- Sizes from here on are beyond the finite doubles. -/
def overflowUnits : Nat := Nat.pow 2 2098

/-- The number of decimal digits of a number, `1` for zero. -/
def digitCount (n : Nat) : Nat := (Nat.toDigits 10 n).length

/-- The double nearest to `digits * 10 ^ exponent`, or `none` if that is beyond the finite doubles. The
magnitude is judged by the number of digits first, so that a huge exponent costs nothing. -/
def ofDecimal? (negative : Bool) (digits : Nat) (exponent : Int) : Option Double :=
  if digits = 0 then some ⟨negative, 0⟩
  else
    let magnitude : Int := digitCount digits + exponent
    if 400 < magnitude then none
    else if magnitude < -400 then some ⟨negative, 0⟩
    else
      let units :=
        match exponent with
        | .ofNat e => nearest (digits * Nat.pow 10 e * unitsPerOne) 1
        | .negSucc e => nearest (digits * unitsPerOne) (Nat.pow 10 (e + 1))
      if overflowUnits ≤ units then none else some ⟨negative, units⟩

end Double
end EsmLift
