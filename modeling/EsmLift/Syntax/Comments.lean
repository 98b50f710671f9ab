import EsmLift.Value.Basic

/-!
# `Syntax.Comments` — comments attached to a node

Comments stand in three fields of a node. `copyComments` puts the comments of one node in front of those of another.
-/

namespace EsmLift.Syntax

/-- The fields that hold comments. -/
def commentKeys : List String := ["comments", "leadingComments", "trailingComments"]

/-- The fields that hold no child nodes: places in the text, and comments. -/
def metadataKeys : List String := ["loc", "range", "start", "end"] ++ commentKeys

/-- The comments under a key of `source` put in front of those of `target`. -/
def copyKey (source target : Value) (key : String) : Except Fault Value := do
  let comments ← source.field key
  if comments.truthy then
    let copied ← comments.items
    match target with
    | .object mark fields =>
      let own ← ((fields.lookup key).getD (.newList [])).items
      return .object mark (Fields.put fields key (.newList (copied ++ own)))
    | _ => .error .notObject
  else return target

/-- Copies the comments under the given keys, one key after another. A fault stops, and leaves what was copied
before it. -/
def copyKeys (source target : Value) : List String → Value × Option Fault
  | [] => (target, none)
  | key :: rest =>
    match copyKey source target key with
    | .ok target => copyKeys source target rest
    | .error fault => (target, some fault)

/-- Puts the comments of `source` in front of those of `target`. -/
def copyComments (source target : Value) : Value × Option Fault :=
  copyKeys source target commentKeys

end EsmLift.Syntax
