/-!
# `Number.Limit` — how long a number in text may be

Converting between whole numbers and decimal digits takes time that grows with the square of the number of digits, so
long numbers are refused, in both directions.
-/

namespace EsmLift

/-- Whole numbers with more decimal digits than this are not read from text, and not written as text. -/
def digitLimit : Nat := 4300

/-- Whether a whole number has few enough digits to be written. -/
def isShort (i : Int) : Bool := decide (i.natAbs < Nat.pow 10 digitLimit)

end EsmLift
