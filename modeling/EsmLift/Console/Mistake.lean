import EsmLift.Number.Limit
import EsmLift.Text.Balance
import EsmLift.Text.Quoted

/-!
# `Console.Mistake` — why a message cannot be shown
-/

namespace EsmLift

/-- What can be wrong with the markup of a message. -/
inductive Mistake where
  /-- A closing tag names no open tag. -/
  | unmatchedTag (tag : String) (position : Nat)
  /-- A closing tag without name while no tag is open. -/
  | nothingToClose (position : Nat)
  /-- The arguments of an action, which are a part of the parameters of its tag, are out of balance. -/
  | unbalancedAction (arguments parameters : String) (reason : Text.Imbalance)
  /-- A number without digits. -/
  | noDigits
  /-- A whole number with more digits than are read. -/
  | tooManyDigits (count : Nat)
  deriving DecidableEq, Repr

/-- What is said about a whole number with too many digits to be read. -/
def tooManyDigitsText (count : Nat) : String :=
  s!"Exceeds the limit ({digitLimit} digits) for integer string conversion: value has {count} digits; " ++
    "use sys.set_int_max_str_digits() to increase the limit"

/-- What is said about a mistake. -/
def Mistake.text : Mistake → String
  | unmatchedTag tag position => s!"closing tag '{tag}' at position {position} doesn't match any open tag"
  | nothingToClose position => s!"closing tag '[/]' at position {position} has nothing to close"
  | unbalancedAction arguments parameters reason =>
    s!"error parsing {Text.quoted arguments} in {Text.quoted parameters}; {reason.text}"
  | noDigits => "invalid literal for int() with base 10: ''"
  | tooManyDigits count => tooManyDigitsText count

end EsmLift
