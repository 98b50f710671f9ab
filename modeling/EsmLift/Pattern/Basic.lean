import EsmLift.Value.Equal

/-!
# `Pattern.Basic` — shapes of values, with named parts

A pattern is a literal, a list of fields with a pattern each, a test, or a capture that names the value it
matches. A match gives the captures in the order in which they were bound. A name can be bound only once: the
constructors `Pattern.ofFields` and `Pattern.named` check the names they can see, and `Captures.merge` checks
those that a test brings up while matching.

## Contents

* `Captures`, `Captures.merge`;
* `Pattern`, `Pattern.names`, `repeated?`, `Pattern.ofFields`, `Pattern.named`;
* `Pattern.run`, the match itself, and `Pattern.accepts`.
-/

namespace EsmLift

/-- Named values, in the order in which they were bound. -/
abbrev Captures := List (String × Value)

namespace Captures

/-- Adds bindings one by one; a name that is bound already is a fault. -/
def merge (bound : Captures) : Captures → Except Fault Captures
  | [] => .ok bound
  | (name, value) :: rest =>
    if bound.any (·.1 == name) then .error (.duplicateCapture name)
    else merge (bound ++ [(name, value)]) rest

end Captures

/-- A test of a value: a fault, no match, or a match with captures. -/
abbrev Test := Value → Except Fault (Option Captures)

/-- The shape of a value. -/
inductive Pattern where
  /-- Values deeply equal to the given one. -/
  | literal (expected : Value)
  /-- Values that pass a test. -/
  | test (check : Test)
  /-- Objects that have all the listed fields, each of the shape given for it. -/
  | fields (subs : List (String × Pattern))
  /-- Values of the inner shape, bound to a name. -/
  | capture (name : String) (inner : Pattern)

/-- The test that asks a truth value. -/
def Test.ofBool (p : Value → Bool) : Test := fun v => .ok (if p v then some [] else none)

namespace Pattern

mutual
/-- The names that a pattern binds, in order; names inside tests are not seen. -/
def names : Pattern → List String
  | literal _ => []
  | test _ => []
  | fields subs => namesOfFields subs
  | capture name inner => name :: names inner

/-- The names that a list of fields binds. -/
def namesOfFields : List (String × Pattern) → List String
  | [] => []
  | (_, p) :: rest => names p ++ namesOfFields rest
end

/-- The first name that repeats an earlier one, where `seen` holds the names in front. -/
def repeated? (seen : List String) : List String → Option String
  | [] => none
  | name :: rest => if seen.contains name then some name else repeated? (name :: seen) rest

/-- A pattern of fields, unless two captures in it have one name. -/
def ofFields (subs : List (String × Pattern)) : Except Fault Pattern :=
  match repeated? [] (namesOfFields subs) with
  | some name => .error (.duplicateCapture name)
  | none => .ok (fields subs)

/-- A capture, unless its name is bound inside. -/
def named (name : String) (inner : Pattern) : Except Fault Pattern :=
  match repeated? [] (name :: inner.names) with
  | some name => .error (.duplicateCapture name)
  | none => .ok (capture name inner)

mutual
/-- Matches a value: none if it does not have the shape, else the captures. -/
def run : Pattern → Value → Except Fault (Option Captures)
  | literal expected, v => .ok (if v.equal expected then some [] else none)
  | test check, v => check v
  | fields subs, v =>
    match v with
    | .object _ fs => runFields subs fs []
    | _ => .ok none
  | capture name inner, v =>
    match run inner v with
    | .error fault => .error fault
    | .ok none => .ok none
    | .ok (some captures) => (Captures.merge [(name, v)] captures).map some

/-- Matches the listed fields one after another; `bound` holds the captures so far. -/
def runFields : List (String × Pattern) → List (String × Value) → Captures →
    Except Fault (Option Captures)
  | [], _, bound => .ok (some bound)
  | (key, p) :: rest, fs, bound =>
    match fs.lookup key with
    | none => .ok none
    | some v =>
      match run p v with
      | .error fault => .error fault
      | .ok none => .ok none
      | .ok (some captures) =>
        match bound.merge captures with
        | .error fault => .error fault
        | .ok bound => runFields rest fs bound
end

/-- Whether a value has the shape of a pattern. -/
def accepts (p : Pattern) (v : Value) : Except Fault Bool := (p.run v).map Option.isSome

end Pattern
end EsmLift
