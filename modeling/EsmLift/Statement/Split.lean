import EsmLift.Require.Classify
import EsmLift.Statement.Replacement
import EsmLift.Syntax.Comments

/-!
# `Statement.Split` — one statement per declarator

A variable declaration with `n` declarators becomes `n` statements in the same order, imports where a
declarator loads a module. The comments of the declaration go to the first of them.
-/

namespace EsmLift.Statement

/-- The statements of the declarators, the first fault winning. -/
def pieces (kind : Value) : List Value → Except Fault (List Value)
  | [] => .ok []
  | d :: rest => do
    let s ← Require.statement kind d
    let rest ← pieces kind rest
    return s :: rest

/-- Copies the comments of a statement to the first of its pieces. -/
def commented (statement : Value) : List Value → Except Fault (List Value)
  | [] => .ok []
  | first :: rest =>
    match Syntax.copyComments statement first with
    | (first, none) => .ok (first :: rest)
    | (_, some fault) => .error fault

/-- The replacement of a variable declaration by its pieces. -/
def split (keepComments : Bool) (statement : Value) : Except Fault Replacement := do
  let kind ← statement.require "kind"
  let declarations ← statement.require "declarations"
  let nodes ← pieces kind (← declarations.items)
  let nodes ← if keepComments then commented statement nodes else pure nodes
  return { target := statement, nodes }

/-- Whether a value is a variable declaration with a declarator that loads a module. Declarators are looked at
in order, up to the first hit. -/
def isCandidate (v : Value) : Except Fault Bool := do
  let type ← v.field "type"
  if type.isText NodeType.variableDeclaration.tag then
    let declarations ← ((v.get? "declarations").getD (.newList [])).items
    return declarations.any Require.isDeclarator
  else return false

end EsmLift.Statement
