import EsmLift.Fault
import EsmLift.Number.Shortest

/-!
# `Value.Basic` — the values that syntax trees are made of

A syntax tree is a value as a parser writes it to JSON: an object is a list of fields in a visible order, and
an object with a field `type` is a node. Trees are edited in place, so objects and lists carry a **mark**: two
occurrences with one mark are one object or one list. Mark `0` belongs to those that have not been placed in a
tree yet.

## Contents

* `Value`, and `Fields`, the fields of an object;
* `Fields.put`: assignment that keeps the place of a key (lookup is `List.lookup`);
* `Value.get?`, `Value.field`, `Value.require`: lookup in a value that may be no object;
* `Value.isNode`, `Value.hasType`, `Value.truthy`, `Value.items`;
* `Value.new`, `Value.newList`: objects and lists without a mark.
-/

namespace EsmLift

/-- A value. Objects and lists have an identity, given by their mark; other values have none. -/
inductive Value where
  | null
  | bool (b : Bool)
  | int (i : Int)
  | double (d : Double)
  | text (s : String)
  | list (mark : Nat) (items : List Value)
  | tuple (items : List Value)
  | object (mark : Nat) (fields : List (String × Value))
  deriving Inhabited, Repr

/-- The fields of an object, in order. -/
abbrev Fields := List (String × Value)

namespace Fields

/-- The keys in order. -/
def keys (fields : Fields) : List String := fields.map (·.1)

/-- Assigns to a key: a present key keeps its place, a new one goes last. -/
def put : Fields → String → Value → Fields
  | [], key, value => [(key, value)]
  | (k, v) :: rest, key, value => if k = key then (k, value) :: rest else (k, v) :: put rest key value

/-- A key that was just assigned to has the new value. -/
@[simp] theorem lookup_put_self (fields : Fields) (key : String) (value : Value) :
    (put fields key value).lookup key = some value := by
  induction fields with
  | nil => simp [put]
  | cons f rest ih =>
    obtain ⟨k, v⟩ := f
    by_cases h : k = key
    · simp [put, h]
    · have hne : (key == k) = false := by simpa using fun e => h e.symm
      simpa [put, h, List.lookup_cons, hne] using ih

end Fields

namespace Value

/-- The value of a field; none if there is no such field, or if the value is no object. -/
def get? : Value → String → Option Value
  | object _ fields, key => fields.lookup key
  | _, _ => none

/-- The value of a field, null if absent; only an object can be asked. -/
def field (v : Value) (key : String) : Except Fault Value :=
  match v with
  | object _ fields => .ok ((fields.lookup key).getD null)
  | _ => .error .notObject

/-- The value of a field that must be there. -/
def require (v : Value) (key : String) : Except Fault Value :=
  match v with
  | object _ fields =>
    match fields.lookup key with
    | some w => .ok w
    | none => .error (.missingField key)
  | _ => .error .notIndexable

/-- Whether a value is an object. -/
def isObject : Value → Bool
  | object .. => true
  | _ => false

/-- Whether a value is a node: an object with a field `type`. -/
def isNode (v : Value) : Bool := (v.get? "type").isSome

/-- Whether a value is this text. -/
def isText (v : Value) (s : String) : Bool :=
  match v with
  | text t => t == s
  | _ => false

/-- Whether a value is an object of the given type. -/
def hasType (v : Value) (type : String) : Bool :=
  match v.get? "type" with
  | some t => t.isText type
  | none => false

/-- Null, false, zeros, and empty text, lists and objects do not count as true. -/
def truthy : Value → Bool
  | null => false
  | bool b => b
  | int i => i != 0
  | double d => d.units != 0
  | text s => s != ""
  | list _ items => !items.isEmpty
  | tuple items => !items.isEmpty
  | object _ fields => !fields.isEmpty

/-- The items of a value: those of a list, the characters of a text, the keys of an object. -/
def items : Value → Except Fault (List Value)
  | list _ xs => .ok xs
  | tuple xs => .ok xs
  | text s => .ok (s.toList.map fun c => text c.toString)
  | object _ fields => .ok (fields.map fun f => text f.1)
  | null | bool _ | int _ | double _ => .error .notIterable

/-- A new object, not placed in a tree yet. -/
def new (fields : Fields) : Value := object 0 fields

/-- A new list, not placed in a tree yet. -/
def newList (items : List Value) : Value := list 0 items

end Value
end EsmLift
