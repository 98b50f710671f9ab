import EsmLift.Value.Basic

/-!
# `Syntax.NodeType` — the types of syntax nodes that matter here

The `type` field of a node names its type; other types than these are passed over.
-/

namespace EsmLift

/-- The node types that are inspected or built. -/
inductive NodeType where
  | program
  | variableDeclaration
  | variableDeclarator
  | callExpression
  | memberExpression
  | identifier
  | objectPattern
  | property
  | literal
  | importDeclaration
  | importSpecifier
  | importDefaultSpecifier
  deriving DecidableEq, Repr

namespace NodeType

/-- The text of a type in the field `type`. -/
def tag : NodeType → String
  | program => "Program"
  | variableDeclaration => "VariableDeclaration"
  | variableDeclarator => "VariableDeclarator"
  | callExpression => "CallExpression"
  | memberExpression => "MemberExpression"
  | identifier => "Identifier"
  | objectPattern => "ObjectPattern"
  | property => "Property"
  | literal => "Literal"
  | importDeclaration => "ImportDeclaration"
  | importSpecifier => "ImportSpecifier"
  | importDefaultSpecifier => "ImportDefaultSpecifier"

/-- All types, in order. -/
def all : List NodeType :=
  [program, variableDeclaration, variableDeclarator, callExpression, memberExpression, identifier,
    objectPattern, property, literal, importDeclaration, importSpecifier, importDefaultSpecifier]

/-- The type as a value. -/
def value (t : NodeType) : Value := .text t.tag

end NodeType

/-- Whether a value is a node of the given type. -/
def Value.isA (v : Value) (t : NodeType) : Bool := v.hasType t.tag

end EsmLift
