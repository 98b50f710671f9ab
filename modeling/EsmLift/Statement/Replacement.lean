import EsmLift.Value.Equal
import EsmLift.Value.Show

/-!
# `Statement.Replacement` — a statement replaced by others in its list

The statement is found by identity: an object or a list by its mark, so that a sibling that looks the same is
never mistaken for it. Values without identity are told apart by their content only.
-/

namespace EsmLift

/-- The statements `nodes` are to stand in place of `target`. -/
structure Replacement where
  target : Value
  nodes : List Value
  deriving Inhabited, Repr

/-- Whether two values are one: objects or lists with one mark, or leaves of one kind and content. -/
def Value.same : Value → Value → Bool
  | .object m _, .object n _ => m == n && m != 0
  | .null, .null => true
  | .bool a, .bool b => a == b
  | .int a, .int b => a == b
  | .double a, .double b => decide (a = b)
  | .text a, .text b => a == b
  | .list m _, .list n _ => m == n && m != 0
  | .tuple a, .tuple b => Value.equalLists a b
  | _, _ => false

namespace Replacement

/-- What stands before and after the first occurrence of a value in a list. -/
def locate (target : Value) : List Value → Option (List Value × List Value)
  | [] => none
  | v :: rest =>
    if v.same target then some ([], rest)
    else (locate target rest).map fun (before, after) => (v :: before, after)

/-- The fault of a statement that is not in the list: it is named by its type, if that can be written. -/
def absent (target : Value) : Fault :=
  match target.field "type" >>= Value.say with
  | .ok type => .notInBody type
  | .error fault => fault

/-- An object is named by its type, unless that holds a number too long to be written. -/
theorem absent_object {target : Value} (htarget : target.isObject = true) :
    absent target =
      if ((target.get? "type").getD .null).isWritable then .notInBody ((target.get? "type").getD .null).shown
      else .tooLong := by
  cases target with
  | object m fs =>
    unfold absent
    show (match ((Value.object m fs).get? "type").getD .null |>.say with
      | .ok type => Fault.notInBody type
      | .error fault => fault) = _
    unfold Value.say
    cases (((Value.object m fs).get? "type").getD .null).isWritable <;> rfl
  | _ => cases htarget

/-- The list around the place of the target. -/
def split (r : Replacement) (body : List Value) : Except Fault (List Value × List Value) :=
  match locate r.target body with
  | some parts => .ok parts
  | none => .error (absent r.target)

/-- Puts the new statements in place of the target; also returns the position where they start. -/
def apply (r : Replacement) (body : List Value) : Except Fault (Nat × List Value) :=
  match r.split body with
  | .ok (before, after) => .ok (before.length, before ++ r.nodes ++ after)
  | .error fault => .error fault

end Replacement
end EsmLift
