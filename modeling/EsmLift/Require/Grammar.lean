import EsmLift.Pattern.Basic
import EsmLift.Syntax.NodeType

/-!
# `Require.Grammar` — declarators that load a module

The shapes `id = require(source)`, where `id` is a name or a flat pattern such as `{a, b: c}`, and
`id = require(source).property`. Captures are called `id`, `sources` (the list of arguments) and `property`.
-/

namespace EsmLift

/-- Whether a value has the shape of a pattern; a fault counts as no. -/
def Pattern.holds (p : Pattern) (v : Value) : Bool :=
  match p.run v with
  | .ok (some _) => true
  | _ => false

namespace Require

/-- The pattern of nodes of a type with further fields. -/
def node (type : NodeType) (subs : List (String × Pattern)) : Pattern :=
  .fields (("type", .literal type.value) :: subs)

/-- Whether a value is a literal node with a text. -/
def isTextLiteral (v : Value) : Bool :=
  v.isA .literal &&
    match v.get? "value" with
    | some (.text _) => true
    | _ => false

/-- A name. -/
def identifier : Pattern := node .identifier []

/-- A property `key: value` of names, with a key that is not computed. -/
def simpleProperty : Pattern :=
  node .property
    [("key", identifier), ("computed", .literal (.bool false)), ("value", identifier)]

/-- Whether a value is a list of simple properties. -/
def isSimpleProperties : Value → Bool
  | .list _ props => props.all simpleProperty.holds
  | _ => false

/-- A flat pattern `{a, b: c}`. -/
def flatPattern : Pattern :=
  node .objectPattern [("properties", .test (Test.ofBool isSimpleProperties))]

/-- Whether a value is a list of one text literal. -/
def isOneSource : Value → Bool
  | .list _ [arg] => isTextLiteral arg
  | _ => false

/-- A call `require(source)`. -/
def call : Pattern :=
  node .callExpression
    [("callee", node .identifier [("name", .literal (.text "require"))]),
      ("arguments", .capture "sources" (.test (Test.ofBool isOneSource)))]

/-- A declarator `id = require(source)`. -/
def plain : Pattern :=
  node .variableDeclarator
    [("id", .capture "id" (.test (Test.ofBool fun v => identifier.holds v || flatPattern.holds v))),
      ("init", call)]

/-- A declarator `id = require(source).property`. -/
def member : Pattern :=
  node .variableDeclarator
    [("id", .capture "id" identifier),
      ("init", node .memberExpression
        [("computed", .literal (.bool false)), ("object", call),
          ("property", .capture "property" (node .identifier []))])]

/-- Whether a declarator loads a module. -/
def isDeclarator (d : Value) : Bool := plain.holds d || member.holds d

end Require
end EsmLift
