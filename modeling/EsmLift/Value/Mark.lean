import EsmLift.Value.Basic

/-!
# `Value.Mark` — objects and lists that are edited in place

Occurrences of an object or a list share its mark. When one is edited, its new state is kept as a **revision**
under its mark; `Value.refresh` brings every occurrence up to date.

## Contents

* `Value.stamp`: gives a mark to every object and list that has none;
* `Value.topMark`: the largest mark in use;
* `Revisions`, `Value.refresh`, `Revisions.recordObject`, `Revisions.recordList`;
* `Value.erase`: a value without its marks.
-/

namespace EsmLift
namespace Value

mutual
/-- Gives the marks `next`, `next + 1`, … to the objects and lists without a mark, and returns the next free
mark. -/
def stamp (next : Nat) : Value → Value × Nat
  | list mark items =>
    if mark = 0 then
      let (items, last) := stampItems (next + 1) items
      (list next items, last)
    else
      let (items, next) := stampItems next items
      (list mark items, next)
  | tuple items =>
    let (items, next) := stampItems next items
    (tuple items, next)
  | object mark fields =>
    if mark = 0 then
      let (fields, last) := stampFields (next + 1) fields
      (object next fields, last)
    else
      let (fields, next) := stampFields next fields
      (object mark fields, next)
  | v => (v, next)

/-- Marks the objects and lists in the items of a list. -/
def stampItems (next : Nat) : List Value → List Value × Nat
  | [] => ([], next)
  | v :: rest =>
    let (v, next) := stamp next v
    let (rest, next) := stampItems next rest
    (v :: rest, next)

/-- Marks the objects and lists in the fields of an object. -/
def stampFields (next : Nat) : List (String × Value) → List (String × Value) × Nat
  | [] => ([], next)
  | (k, v) :: rest =>
    let (v, next) := stamp next v
    let (rest, next) := stampFields next rest
    ((k, v) :: rest, next)
end

mutual
/-- The largest mark in a value. -/
def topMark : Value → Nat
  | list mark items => max mark (topMarkItems items)
  | tuple items => topMarkItems items
  | object mark fields => max mark (topMarkFields fields)
  | _ => 0

/-- The largest mark in the items of a list. -/
def topMarkItems : List Value → Nat
  | [] => 0
  | v :: rest => max (topMark v) (topMarkItems rest)

/-- The largest mark in the fields of an object. -/
def topMarkFields : List (String × Value) → Nat
  | [] => 0
  | (_, v) :: rest => max (topMark v) (topMarkFields rest)
end

mutual
/-- A value without its marks. -/
def erase : Value → Value
  | list _ items => list 0 (eraseItems items)
  | tuple items => tuple (eraseItems items)
  | object _ fields => object 0 (eraseFields fields)
  | v => v

/-- The items of a list without their marks. -/
def eraseItems : List Value → List Value
  | [] => []
  | v :: rest => erase v :: eraseItems rest

/-- The fields of an object without their marks. -/
def eraseFields : List (String × Value) → List (String × Value)
  | [] => []
  | (k, v) :: rest => (k, erase v) :: eraseFields rest
end

end Value

/-- The current state of the objects and lists that were edited, by mark. -/
abbrev Revisions := List (Nat × Value)

mutual
/-- A value with every edited object and list brought up to date. -/
def Value.refresh (revisions : Revisions) : Value → Value
  | .list mark items => (revisions.lookup mark).getD (.list mark (refreshItems revisions items))
  | .tuple items => .tuple (refreshItems revisions items)
  | .object mark fields => (revisions.lookup mark).getD (.object mark (refreshFields revisions fields))
  | v => v

/-- The items of a list brought up to date. -/
def refreshItems (revisions : Revisions) : List Value → List Value
  | [] => []
  | v :: rest => v.refresh revisions :: refreshItems revisions rest

/-- The fields of an object brought up to date. -/
def refreshFields (revisions : Revisions) : List (String × Value) → List (String × Value)
  | [] => []
  | (k, v) :: rest => (k, v.refresh revisions) :: refreshFields revisions rest
end

mutual
/-- Without revisions nothing changes. -/
@[simp] theorem Value.refresh_nil : (v : Value) → v.refresh [] = v
  | .null | .bool _ | .int _ | .double _ | .text _ => by simp [Value.refresh]
  | .list mark items => by simp [Value.refresh, refreshItems_nil items]
  | .tuple items => by simp [Value.refresh, refreshItems_nil items]
  | .object mark fields => by simp [Value.refresh, refreshFields_nil fields]

/-- Without revisions no item changes. -/
@[simp] theorem refreshItems_nil : (vs : List Value) → refreshItems [] vs = vs
  | [] => by simp [refreshItems]
  | v :: rest => by simp [refreshItems, Value.refresh_nil v, refreshItems_nil rest]

/-- Without revisions no field changes. -/
@[simp] theorem refreshFields_nil : (fs : List (String × Value)) → refreshFields [] fs = fs
  | [] => by simp [refreshFields]
  | (k, v) :: rest => by simp [refreshFields, Value.refresh_nil v, refreshFields_nil rest]
end

namespace Revisions

/-- Keeps a new state, and brings the other revisions up to date. -/
def record (revisions : Revisions) (mark : Nat) (current : Value) : Revisions :=
  (mark, current) :: (revisions.filter (·.1 != mark)).map fun r => (r.1, r.2.refresh [(mark, current)])

/-- Keeps the new fields of an object, as they are now. -/
def recordObject (revisions : Revisions) (mark : Nat) (fields : Fields) : Revisions :=
  revisions.record mark (.object mark (refreshFields revisions fields))

/-- Keeps the new items of a list, as they are now. -/
def recordList (revisions : Revisions) (mark : Nat) (items : List Value) : Revisions :=
  revisions.record mark (.list mark (refreshItems revisions items))

end Revisions
end EsmLift
