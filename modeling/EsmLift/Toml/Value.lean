import EsmLift.Validation.Field

/-!
# `Toml.Value` — the values of a configuration file

Tables keep their keys in order. Dates and times are kept in their ISO form, because nothing is computed with
them.

## Contents

* `Value`, `Table`, `Value.shape`;
* `Refusal`, `demand`: why a file is not read.
-/

namespace EsmLift
namespace Toml

/-- A number with a point, an exponent or a name. -/
inductive Real where
  | finite (d : Double)
  | infinite (negative : Bool)
  | notANumber

/-- A value of a configuration file. -/
inductive Value where
  | text (s : String)
  | bool (b : Bool)
  | int (i : Int)
  | real (r : Real)
  | moment (iso : String)
  | array (items : List Value)
  | table (entries : List (String × Value))

/-- Why a file is not read. -/
inductive Refusal where
  /-- The bytes are not UTF-8. -/
  | notUtf8
  /-- The text is no document. -/
  | malformed
  /-- A whole number in base ten has too many digits; their number is given. -/
  | tooManyDigits (count : Nat)
  deriving DecidableEq, Repr

/-- A part that must be there. -/
def demand {α : Type} : Option α → Except Refusal α
  | some a => .ok a
  | none => .error .malformed

/-- The entries of a table. -/
abbrev Table := List (String × Value)

/-- What a field check sees of a value. -/
def Value.shape : Value → Shape
  | text s => .text s
  | bool b => .bool b
  | int i => .int i
  | real (.finite d) => .double d
  | _ => .other

end Toml
end EsmLift
