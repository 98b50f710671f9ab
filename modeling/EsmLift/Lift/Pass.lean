import EsmLift.Diagnostics
import EsmLift.Statement.Split
import EsmLift.Walk.Run

/-!
# `Lift.Pass` — module loads become imports

A candidate is a variable declaration with a declarator that loads a module. A candidate in a list of a program
node is split into its pieces; a candidate anywhere else is rejected with a warning and stays.

## Contents

* `Lift.Memory`, `Lift.visitor`: the decision at one node;
* `Lift.fuel`: a bound on the depth of the walk, from the size of the tree;
* `Lift.Result`, `Lift.run`: the pass over a tree.
-/

namespace EsmLift

mutual
/-- The number of values in a value, with one more for each field. -/
def Value.size : Value → Nat
  | .list _ items => 1 + sizeItems items
  | .tuple items => 1 + sizeItems items
  | .object _ fields => 1 + sizeFields fields
  | _ => 1

/-- The number of values in the items of a list. -/
def sizeItems : List Value → Nat
  | [] => 0
  | v :: rest => v.size + sizeItems rest

/-- The number of values in the fields of an object, with one more for each field. -/
def sizeFields : List (String × Value) → Nat
  | [] => 0
  | (_, v) :: rest => 1 + v.size + sizeFields rest
end

namespace Lift

/-- The warning about a candidate that is not in a list of a program. -/
def rootLevelMessage : String := "import can only be at root level"

/-- What the pass remembers. -/
structure Memory where
  sink : Diagnostics
  /-- The replacements asked for, in order. -/
  replacements : List Replacement
  /-- The candidates left as they are, in order. -/
  rejected : List Value

/-- Whether an owner is a program. -/
def isProgram : Option Value → Bool
  | some owner => owner.isA .program
  | none => false

/-- Splits candidates owned by a program, and warns about the others. -/
def visitor (category : Value) (keepComments : Bool) : Visitor Memory where
  enter v owner m :=
    match Statement.isCandidate v with
    | .error fault => (.error fault, m)
    | .ok false => (.ok .keep, m)
    | .ok true =>
      if isProgram owner then
        match Statement.split keepComments v with
        | .error fault => (.error fault, m)
        | .ok request => (.ok (.splice request), { m with replacements := m.replacements ++ [request] })
      else
        match m.sink.warn v (.text rootLevelMessage) category with
        | (.error fault, sink) => (.error fault, { m with sink })
        | (.ok (), sink) => (.ok .keep, { m with sink, rejected := m.rejected ++ [v] })

/-- A bound on the depth of the walk. Each level of nesting, and each field or item passed on the way, costs a
few steps; a split statement is at most a few levels deeper than the statement it came from. -/
def fuel (tree : Value) : Nat := 16 * tree.size + 16

/-- The end of a pass: the tree and what was remembered, as they are now. -/
structure Result where
  tree : Value
  fault : Option Fault
  sink : Diagnostics
  replacements : List Replacement
  rejected : List Value

/-- Runs the pass over a tree. -/
def run (category : Value) (keepComments : Bool) (sink : Diagnostics) (tree : Value) : Result :=
  let o := walk (visitor category keepComments) (fuel tree) tree ⟨sink, [], []⟩
  let current (v : Value) : Value := v.refresh o.revisions
  { tree := o.tree
    fault := o.fault
    sink := o.memory.sink
    replacements := o.memory.replacements.map fun r =>
      { target := current r.target, nodes := r.nodes.map current }
    rejected := o.memory.rejected.map current }

end Lift
end EsmLift
