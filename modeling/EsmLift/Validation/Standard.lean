import EsmLift.Validation.Field
import EsmLift.Validation.WholeText

/-!
# `Validation.Standard` — the lenient checks

A truth value may be written as `0`, `1`, `"yes"` or `"off"`, a whole number as text or as a double without fraction.

## Contents

* `readBool`, `readText`, `readInt`;
* `Checks.standard`: these checks.
-/

namespace EsmLift
namespace Validation

/-- Whether a number fits into a signed word of 64 bits. -/
def fitsWord (i : Int) : Bool := -Int.pow 2 63 ≤ i && i < Int.pow 2 63

/-- The texts that mean true. -/
def trueTexts : List String := ["1", "on", "t", "true", "y", "yes"]

/-- The texts that mean false. -/
def falseTexts : List String := ["0", "off", "f", "false", "n", "no"]

/-- The whole number of 64 bits that a double is equal to; the least such number is left out. -/
def wordOf? (d : Double) : Option Int :=
  match d.toWhole? with
  | some i => if -Int.pow 2 63 < i ∧ i < Int.pow 2 63 then some i else none
  | none => none

/-- Zero and one as truth values. -/
def wholeAsBool (i : Int) : Except Problem Bool :=
  if i = 0 then .ok false else if i = 1 then .ok true else .error .boolParsing

/-- A truth value. -/
def readBool : Shape → Except Problem Bool
  | .bool b => .ok b
  | .int i => if fitsWord i then wholeAsBool i else .error .boolType
  | .double d =>
    match wordOf? d with
    | some i => wholeAsBool i
    | none => .error .boolType
  | .text s =>
    let lower := String.ofList (s.toList.map Char.toLower)
    if trueTexts.contains lower then .ok true
    else if falseTexts.contains lower then .ok false
    else .error .boolParsing
  | .other => .error .boolType

/-- A text. -/
def readText : Shape → Except Problem String
  | .text s => .ok s
  | _ => .error .stringType

/-- A whole number. -/
def readInt : Shape → Except Problem Int
  | .bool b => .ok (if b then 1 else 0)
  | .int i => .ok i
  | .double d =>
    match d.toWhole?, wordOf? d with
    | none, _ => .error .intFraction
    | some _, none => .error .intSize
    | some _, some i => .ok i
  | .text s =>
    match readWhole s with
    | .number i => .ok i
    | .tooLong => .error .intSize
    | .invalid => .error .intParsing
  | .other => .error .intType

/-- Nothing but a text is read as a text. -/
theorem readText_eq_ok_iff (s : Shape) (t : String) : readText s = .ok t ↔ s = .text t := by
  cases s <;> simp [readText]

end Validation

/-- The lenient checks. -/
def Checks.standard : Checks where
  bool := Validation.readBool
  int := Validation.readInt
  text := Validation.readText
  int_int _ := rfl
  int_bool _ := rfl
  text_iff := Validation.readText_eq_ok_iff

end EsmLift
