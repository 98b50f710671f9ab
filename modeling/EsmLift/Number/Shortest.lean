import EsmLift.Number.Double

/-!
# `Number.Shortest` — the fewest decimal digits that read back

The reals that round to a double form an interval around it. `Double.shortest` looks for a decimal in that
interval on grids of one, two, … seventeen digits; the first grid with a hit wins, and of two hits the nearer
(on a tie, the even one). All comparisons are exact, between natural numbers.

## Contents

* `Decimal`, a number `digits * 10 ^ exponent`;
* `Double.shortest`, the shortest decimal of a size in units;
* `Decimal.text`, its layout: positional for exponents from `-4` below `16`, else scientific.
-/

namespace EsmLift

/-- The decimal `digits * 10 ^ exponent`. -/
structure Decimal where
  digits : Nat
  exponent : Int
  deriving DecidableEq, Repr, Inhabited

namespace Decimal

/-- Moves trailing zeros of the digits into the exponent. -/
def trim (d : Decimal) : Nat → Decimal
  | 0 => d
  | fuel + 1 =>
    if d.digits ≠ 0 ∧ d.digits % 10 = 0 then trim ⟨d.digits / 10, d.exponent + 1⟩ fuel else d

end Decimal

namespace Double

/-- The least `k` from the given one on with `2 ^ 1074 ≤ units * 10 ^ k`, looked for at most `fuel` steps. -/
def firstScale (units k : Nat) : Nat → Nat
  | 0 => k
  | fuel + 1 => if unitsPerOne ≤ units * Nat.pow 10 k then k else firstScale units (k + 1) fuel

/-- The exponent of the leading decimal digit of a positive size. -/
def decimalExponent (units : Nat) : Int :=
  if unitsPerOne ≤ units then (digitCount (units / unitsPerOne) : Int) - 1
  else -(firstScale units 1 400 : Int)

/-- A decimal on the grid of `10 ^ step` that rounds to the given size, if there is one. The interval is
scaled by four, so that its ends, half a spacing away on either side, are whole. -/
def hitOnGrid (units : Nat) (step : Int) : Option Decimal :=
  let spacing := Nat.pow 2 (spacingExponent units)
  let below := if units = Nat.pow 2 units.log2 ∧ 1 < spacing then spacing else 2 * spacing
  let scaleUp := if step < 0 then Nat.pow 10 step.natAbs else 1
  let den := if step < 0 then unitsPerOne else unitsPerOne * Nat.pow 10 step.natAbs
  let low := (4 * units - below) * scaleUp
  let high := (4 * units + 2 * spacing) * scaleUp
  let closed := units / spacing % 2 = 0
  let inside (n : Nat) : Bool :=
    let x := 4 * n * den
    if closed then low ≤ x && x ≤ high else low < x && x < high
  let num := units * scaleUp
  let c := num / den
  let r := num % den
  match inside c, inside (c + 1) with
  | false, false => none
  | true, false => some ⟨c, step⟩
  | false, true => some ⟨c + 1, step⟩
  | true, true =>
    if 2 * r < den then some ⟨c, step⟩
    else if den < 2 * r then some ⟨c + 1, step⟩
    else some ⟨c + c % 2, step⟩

/-- The first hit on the grids from `count` digits on. -/
def firstHit (units : Nat) (top : Int) (count : Nat) : Nat → Decimal
  | 0 => ⟨0, 0⟩
  | fuel + 1 =>
    match hitOnGrid units (top - count + 1) with
    | some d => d
    | none => firstHit units top (count + 1) fuel

/-- The shortest decimal that rounds to the given size. -/
def shortest (units : Nat) : Decimal :=
  if units = 0 then ⟨0, 0⟩
  else (firstHit units (decimalExponent units) 1 17).trim 20

end Double

namespace Decimal

/-- Positional notation is used from this exponent of the leading digit on. -/
def positionalFrom : Int := -4

/-- Positional notation is used below this exponent of the leading digit. -/
def positionalBelow : Int := 16

/-- An exponent with its sign and at least two digits. -/
def exponentText (e : Int) : String :=
  let digits := String.ofList (Nat.toDigits 10 e.natAbs)
  (if e < 0 then "-" else "+") ++ (if digits.length < 2 then "0" ++ digits else digits)

/-- The layout of an unsigned decimal: `0.0001`, `1.0`, `15.25`, `1e+16`, `1.5e-07`. -/
def text (d : Decimal) : String :=
  let ds := Nat.toDigits 10 d.digits
  let lead : Int := d.exponent + ds.length - 1
  if positionalFrom ≤ lead ∧ lead < positionalBelow then
    if lead < 0 then
      "0." ++ String.ofList (List.replicate (lead.natAbs - 1) '0' ++ ds)
    else
      let whole := lead.toNat + 1
      let padded := ds ++ List.replicate (whole - ds.length) '0'
      let rest := padded.drop whole
      String.ofList (padded.take whole) ++ "." ++
        (if rest.isEmpty then "0" else String.ofList rest)
  else
    let rest := ds.drop 1
    String.ofList (ds.take 1) ++ (if rest.isEmpty then "" else "." ++ String.ofList rest) ++
      "e" ++ exponentText lead

end Decimal

/-- The text of a double: its sign, also of a zero, and its shortest decimal. -/
def Double.text (d : Double) : String :=
  (if d.negative then "-" else "") ++ (Double.shortest d.units).text

end EsmLift
