import EsmLift.Validation.Issue
import EsmLift.Value.Basic

/-!
# `Validation.Field` — checks of fields

What a check of one field accepts is not decided here: the library is given a check for each type of field. It relies
on the plain cases only: a whole number and a text are read as they are, and nothing but a text is read as a text. What
a check can see of a value is its `Shape`.

## Contents

* `Shape`, `Value.shape`;
* `Checks`: the checks of one field, and what is relied on;
* `Checked`, the result of checking several fields, which collects all issues.
-/

namespace EsmLift

/-- What a field check can see of a value. -/
inductive Shape where
  | bool (b : Bool)
  | int (i : Int)
  | double (d : Double)
  | text (s : String)
  /-- Null, lists, objects and anything else. -/
  | other

/-- The shape of a value. -/
def Value.shape : Value → Shape
  | bool b => .bool b
  | int i => .int i
  | double d => .double d
  | text s => .text s
  | _ => .other

/-- Checks of one field, for each type of field. -/
structure Checks where
  /-- A truth value. -/
  bool : Shape → Except Problem Bool
  /-- A whole number. -/
  int : Shape → Except Problem Int
  /-- A text. -/
  text : Shape → Except Problem String
  /-- A whole number is read as it is. -/
  int_int : ∀ i, int (.int i) = .ok i
  /-- A truth value is read as zero or one. -/
  int_bool : ∀ b, int (.bool b) = .ok (if b then 1 else 0)
  /-- A text is read as it is, and nothing else is read as a text. -/
  text_iff : ∀ s t, text s = .ok t ↔ s = .text t

namespace Validation

/-- The result of checks: a value, or all that is wrong. -/
abbrev Checked (α : Type) := Except (List Issue) α

/-- One check applied at a place. -/
def within {α : Type} (step : Step) : Checked α → Checked α
  | .ok a => .ok a
  | .error issues => .error (issues.map (Issue.under step))

/-- The result of a single check. -/
def single {α : Type} : Except Problem α → Checked α
  | .ok a => .ok a
  | .error problem => .error [{ path := [], problem }]

/-- Two checks, whose issues are collected. -/
def both {α β : Type} (a : Checked α) (b : Checked β) : Checked (α × β) :=
  match a, b with
  | .ok a, .ok b => .ok (a, b)
  | .error e, .ok _ => .error e
  | .ok _, .error f => .error f
  | .error e, .error f => .error (e ++ f)

/-- Checks of the items of a list, from a position on. -/
def each {α β : Type} (check : α → Checked β) (position : Nat) : List α → Checked (List β)
  | [] => .ok []
  | x :: rest =>
    match both (within (.index position) (check x)) (each check (position + 1) rest) with
    | .ok (y, ys) => .ok (y :: ys)
    | .error issues => .error issues

/-- A field with a default. -/
def optional {ι α : Type} (name : String) (default : α) (check : ι → Checked α) : Option ι → Checked α
  | some v => within (.field name) (check v)
  | none => .ok default

/-- A field without default. -/
def required {ι α : Type} (name : String) (check : ι → Checked α) : Option ι → Checked α
  | some v => within (.field name) (check v)
  | none => .error [{ path := [.field name], problem := .missing }]

/-- The result of checks as a result of the library. -/
def Checked.lift {α : Type} : Checked α → Except Fault α
  | .ok a => .ok a
  | .error issues => .error (.invalid issues)

end Validation
end EsmLift
