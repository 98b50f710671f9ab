/-!
# `Text.CodeRange` — sets of characters as ranges of code points

Character classes of the Unicode standard are given as lists of closed ranges of code points.
-/

namespace EsmLift

/-- Closed ranges of code points. -/
abbrev CodeRanges := List (Nat × Nat)

/-- Whether a character lies in one of the ranges. -/
def CodeRanges.has (ranges : CodeRanges) (c : Char) : Bool :=
  ranges.any fun r => r.1 ≤ c.toNat && c.toNat ≤ r.2

end EsmLift
