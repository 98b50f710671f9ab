import EsmLift.Syntax.Comments
import EsmLift.Walk.Visitor

/-!
# `Walk.Run` — a tree walked and edited in place

The walk goes through a tree in pre-order: owners before what they own, fields in order, list items in order.
Metadata fields are passed over, and so are values that are no nodes and lists inside lists. The nodes that an
answer puts in are not asked about themselves, but their children are.

A fault stops the walk and leaves the tree as it was changed up to there; so every step returns what stands in
its place now, beside the fault. An object that got a new field value, and a list that got new items, are
recorded as revisions, because they may occur elsewhere. That is done when the walk leaves them: an answer that holds
an object or a list in which the walk still is would put it inside itself, and has no finite tree to show for it.

## Contents

* `Walked`, the result of a step;
* `Walk.children`, `Walk.fields`, `Walk.slot`, `Walk.items`, `Walk.each`: the walk, bounded by fuel;
* `Outcome`, `walk`: a walk from the root.
-/

namespace EsmLift

/-- The result of walking through a part of a tree: what stands there now, whether something new was put in its
place or among its parts, the fault that stopped the walk, and the trail. -/
structure Walked (σ α : Type) where
  value : α
  edited : Bool
  fault : Option Fault
  trail : Trail σ

namespace Walk

variable {σ : Type} (V : Visitor σ)

mutual
/-- Walks through the children of a node. -/
def children (fuel : Nat) (v : Value) (t : Trail σ) : Walked σ Value :=
  match fuel with
  | 0 => ⟨v, false, some .exhausted, t⟩
  | fuel + 1 =>
    match v with
    | .object mark fs =>
      let w := fields fuel mark [] fs t
      ⟨.object mark w.value, false, w.fault,
        if w.edited then w.trail.recordObject mark w.value else w.trail⟩
    | v => ⟨v, false, some .notObject, t⟩

/-- Walks through the fields `todo` of the object that has the fields `done ++ todo`. -/
def fields (fuel : Nat) (mark : Nat) (done todo : Fields) (t : Trail σ) : Walked σ Fields :=
  match fuel with
  | 0 => ⟨todo, false, some .exhausted, t⟩
  | fuel + 1 =>
    match todo with
    | [] => ⟨[], false, none, t⟩
    | (key, v) :: rest =>
      let here := slot fuel (fun w => .object mark (done ++ (key, w) :: rest)) key v t
      match here.fault with
      | some fault => ⟨(key, here.value) :: rest, here.edited, some fault, here.trail⟩
      | none =>
        let later := fields fuel mark (done ++ [(key, here.value)]) rest here.trail
        ⟨(key, here.value) :: later.value, here.edited || later.edited, later.fault, later.trail⟩

/-- Walks through the value of one field; `owner` is the object around it. -/
def slot (fuel : Nat) (owner : Value → Value) (key : String) (v : Value) (t : Trail σ) :
    Walked σ Value :=
  match fuel with
  | 0 => ⟨v, false, some .exhausted, t⟩
  | fuel + 1 =>
    if Syntax.metadataKeys.contains key then ⟨v, false, none, t⟩
    else
      match t.current v with
      | .list mark xs =>
        let w := items fuel (fun ys => owner (.list mark ys)) [] xs t
        ⟨.list mark w.value, false, w.fault,
          if w.edited then w.trail.recordList mark w.value else w.trail⟩
      | v =>
        if v.isNode then
          match V.ask v (some (owner v)) t with
          | (.error fault, t) => ⟨v, false, some fault, t⟩
          | (.ok .keep, t) => children fuel v t
          | (.ok (.node n), t) => { children fuel n t with edited := true }
          | (.ok (.splice _), t) => ⟨v, false, some (.fieldSplice key), t⟩
        else ⟨v, false, none, t⟩

/-- Walks through the items `todo` of the list `done ++ todo`; `owner` is the object around the list. The
result is the whole list. After a splice the walk goes on behind the new statements, wherever they stand. -/
def items (fuel : Nat) (owner : List Value → Value) (done todo : List Value) (t : Trail σ) :
    Walked σ (List Value) :=
  match fuel with
  | 0 => ⟨done ++ todo, false, some .exhausted, t⟩
  | fuel + 1 =>
    match todo with
    | [] => ⟨done, false, none, t⟩
    | v :: rest =>
      if v.isNode then
        let v := t.current v
        match V.ask v (some (owner (done ++ v :: rest))) t with
        | (.error fault, t) => ⟨done ++ v :: rest, false, some fault, t⟩
        | (.ok .keep, t) =>
          let w := children fuel v t
          match w.fault with
          | some fault => ⟨done ++ w.value :: rest, false, some fault, w.trail⟩
          | none => items fuel owner (done ++ [w.value]) rest w.trail
        | (.ok (.node n), t) =>
          let w := children fuel n t
          match w.fault with
          | some fault => ⟨done ++ w.value :: rest, true, some fault, w.trail⟩
          | none => { items fuel owner (done ++ [w.value]) rest w.trail with edited := true }
        | (.ok (.splice request), t) =>
          match request.split (done ++ v :: rest) with
          | .error fault => ⟨done ++ v :: rest, false, some fault, t⟩
          | .ok (before, after) =>
            let w := each fuel request.nodes t
            match w.fault with
            | some fault => ⟨before ++ w.value ++ after, true, some fault, w.trail⟩
            | none => { items fuel owner (before ++ w.value) after w.trail with edited := true }
      else items fuel owner (done ++ [v]) rest t

/-- Walks through the children of new statements, one statement after another. -/
def each (fuel : Nat) (nodes : List Value) (t : Trail σ) : Walked σ (List Value) :=
  match fuel with
  | 0 => ⟨nodes, false, some .exhausted, t⟩
  | fuel + 1 =>
    match nodes with
    | [] => ⟨[], false, none, t⟩
    | v :: rest =>
      let w := children fuel (t.current v) t
      match w.fault with
      | some fault => ⟨w.value :: rest, false, some fault, w.trail⟩
      | none =>
        let later := each fuel rest w.trail
        ⟨w.value :: later.value, false, later.fault, later.trail⟩
end

end Walk

/-- The end of a walk. -/
structure Outcome (σ : Type) where
  /-- The root that the walk returns, if there is no fault. -/
  root : Value
  /-- The tree that was given, as it is now; it differs from the root only if the root was replaced. -/
  tree : Value
  /-- Whether the root was replaced. -/
  replaced : Bool
  fault : Option Fault
  memory : σ
  /-- The objects and lists that were edited. -/
  revisions : Revisions

namespace Outcome

variable {σ : Type}

/-- A walk that ended at the root. -/
def stopped (tree : Value) (fault : Fault) (t : Trail σ) : Outcome σ :=
  { root := tree, tree, replaced := false, fault := some fault, memory := t.memory, revisions := [] }

/-- A walk through the children of a root. -/
def ofWalked (tree : Value) (replaced : Bool) (w : Walked σ Value) : Outcome σ :=
  let root := w.trail.current w.value
  { root, tree := if replaced then w.trail.current tree else root, replaced, fault := w.fault,
    memory := w.trail.memory, revisions := w.trail.revisions }

end Outcome

/-- Walks through a tree from its root. -/
def walk {σ : Type} (V : Visitor σ) (fuel : Nat) (tree : Value) (memory : σ) : Outcome σ :=
  let (tree, next) := tree.stamp (tree.topMark + 1)
  match V.ask tree none { memory, next, revisions := [] } with
  | (.error fault, t) => .stopped tree fault t
  | (.ok (.splice _), t) => .stopped tree .rootSplice t
  | (.ok .keep, t) => .ofWalked tree false (Walk.children V fuel tree t)
  | (.ok (.node n), t) => .ofWalked tree true (Walk.children V fuel n t)

end EsmLift
