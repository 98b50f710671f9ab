import EsmLift.Pattern.Basic

/-!
# `Pattern.Description` — patterns written down as plain data

A description mixes plain values, tests and ready patterns. A plain object and a mapping both stand for a
pattern of their fields; any other plain value stands for itself.

## Contents

* `Pattern.ofValue`: the pattern of a plain value;
* `Description`, `Description.compile`;
* `Description.extract`: a capture, of anything if the description is null.
-/

namespace EsmLift

mutual
/-- The pattern that a plain value describes: an object is open, it asks only for the fields listed. -/
def Pattern.ofValue : Value → Pattern
  | .object _ fs => .fields (Pattern.ofPlainFields fs)
  | v => .literal v

/-- The patterns that the fields of a plain object describe. -/
def Pattern.ofPlainFields : List (String × Value) → List (String × Pattern)
  | [] => []
  | (k, v) :: rest => (k, Pattern.ofValue v) :: Pattern.ofPlainFields rest
end

/-- A pattern written down as data. -/
inductive Description where
  | plain (v : Value)
  | test (check : Test)
  | pattern (p : Pattern)
  | mapping (entries : List (String × Description))

namespace Description

mutual
/-- The pattern that is described, unless it would bind a name twice. -/
def compile : Description → Except Fault Pattern
  | plain v => .ok (Pattern.ofValue v)
  | test check => .ok (.test check)
  | pattern p => .ok p
  | mapping entries =>
    match compileEntries entries with
    | .error fault => .error fault
    | .ok subs => Pattern.ofFields subs

/-- The patterns that the entries of a mapping describe, the first fault winning. -/
def compileEntries : List (String × Description) → Except Fault (List (String × Pattern))
  | [] => .ok []
  | (k, d) :: rest =>
    match compile d with
    | .error fault => .error fault
    | .ok p =>
      match compileEntries rest with
      | .error fault => .error fault
      | .ok ps => .ok ((k, p) :: ps)
end

/-- Whether a description is the plain null. -/
def isNull : Description → Bool
  | plain .null => true
  | _ => false

/-- The pattern that binds a name to a value of the described shape; the plain null accepts anything. -/
def extract (name : String) (d : Description) : Except Fault Pattern :=
  if d.isNull then Pattern.named name (.test (Test.ofBool fun _ => true))
  else
    match d.compile with
    | .error fault => .error fault
    | .ok p => Pattern.named name p

end Description
end EsmLift
