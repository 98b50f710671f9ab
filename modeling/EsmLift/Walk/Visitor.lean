import EsmLift.Statement.Replacement
import EsmLift.Value.Mark

/-!
# `Walk.Visitor` — who is asked at each node, and what is remembered on the way

A visitor is asked once at each node, before its children, and answers whether the node is kept, replaced by
another one, or replaced by a list of statements. It has a memory of its own, which outlives a fault.

## Contents

* `Answer`, `Visitor`;
* `Trail`: the memory of the visitor, the next free mark and the revisions so far;
* `Visitor.ask`: one question, with marks for the new objects of the answer.
-/

namespace EsmLift

/-- What a visitor wants done with a node. -/
inductive Answer where
  /-- The node stays. -/
  | keep
  /-- Another node takes its place. -/
  | node (v : Value)
  /-- A list of statements takes the place of a statement in the list that holds the node. -/
  | splice (request : Replacement)
  deriving Inhabited, Repr

/-- A visitor with a memory of type `σ`: it sees a node and the node that owns it, if any. -/
structure Visitor (σ : Type) where
  enter : Value → Option Value → σ → Except Fault Answer × σ

/-- What a walk carries along. -/
structure Trail (σ : Type) where
  memory : σ
  next : Nat
  revisions : Revisions

namespace Trail

variable {σ : Type}

/-- A value as it is now. -/
def current (t : Trail σ) (v : Value) : Value := v.refresh t.revisions

/-- Remembers the new fields of an object. -/
def recordObject (t : Trail σ) (mark : Nat) (fields : Fields) : Trail σ :=
  { t with revisions := t.revisions.recordObject mark fields }

/-- Remembers the new items of a list. -/
def recordList (t : Trail σ) (mark : Nat) (items : List Value) : Trail σ :=
  { t with revisions := t.revisions.recordList mark items }

end Trail

/-- An answer whose new objects have marks, and the next free mark. -/
def Answer.stamp (next : Nat) : Answer → Answer × Nat
  | .keep => (.keep, next)
  | .node v =>
    let (v, next) := v.stamp next
    (.node v, next)
  | .splice r =>
    let (target, next) := r.target.stamp next
    let (nodes, next) := Value.stampItems next r.nodes
    (.splice { target, nodes }, next)

/-- Asks the visitor about a node. -/
def Visitor.ask {σ : Type} (V : Visitor σ) (v : Value) (owner : Option Value) (t : Trail σ) :
    Except Fault Answer × Trail σ :=
  match V.enter v owner t.memory with
  | (.error fault, memory) => (.error fault, { t with memory })
  | (.ok answer, memory) =>
    let (answer, next) := answer.stamp t.next
    (.ok answer, { t with memory, next })

end EsmLift
