import EsmLift.Value.Basic

/-!
# `Value.Equal` — deep equality

Two values are equal if they have the same structure and equal leaves. Numbers are compared by their exact
value, whole numbers with doubles too; a truth value equals only itself, never a number. The order of the keys
of an object does not count, and neither do marks; a list never equals a tuple.
-/

namespace EsmLift
namespace Value

mutual
/-- Deep equality. -/
def equal : Value → Value → Bool
  | null, null => true
  | bool a, bool b => a == b
  | int a, int b => a == b
  | int a, double b => Double.ofWhole a == b.signed
  | double a, int b => a.signed == Double.ofWhole b
  | double a, double b => a.signed == b.signed
  | text a, text b => a == b
  | list _ a, list _ b => equalLists a b
  | tuple a, tuple b => equalLists a b
  | object _ a, object _ b => (b.all fun f => a.any fun g => g.1 == f.1) && equalFields a b
  | _, _ => false

/-- Deep equality of lists, item by item. -/
def equalLists : List Value → List Value → Bool
  | [], [] => true
  | a :: as, b :: bs => equal a b && equalLists as bs
  | _, _ => false

/-- Whether every field of the first list has an equal one under its key in the second. -/
def equalFields : List (String × Value) → List (String × Value) → Bool
  | [], _ => true
  | (k, v) :: rest, other =>
    (match other.lookup k with
      | some w => equal v w
      | none => false) && equalFields rest other
end

end Value
end EsmLift
