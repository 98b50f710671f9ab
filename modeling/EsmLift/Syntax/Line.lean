import EsmLift.Value.Basic

/-!
# `Syntax.Line` — the line on which a node starts

The line stands at `loc.start.line`. A truth value there counts as a number; anything else, or no location,
gives line `0`.
-/

namespace EsmLift.Syntax

/-- Whether a value counts as a line: a whole number or a truth value. -/
def isLine : Value → Bool
  | .int _ | .bool _ => true
  | _ => false

/-- The line that is attached to a node, as it is written there; `0` if there is none. -/
def startLine (v : Value) : Except Fault Value :=
  match v.get? "loc" with
  | some (.object _ loc) => do
    let start := (loc.lookup "start").getD .null
    let start := if start.truthy then start else .new []
    let line ← start.field "line"
    return if isLine line then line else .int 0
  | _ => .ok (.int 0)

/-- A line as a number. -/
def lineNumber : Value → Int
  | .int i => i
  | .bool true => 1
  | _ => 0

end EsmLift.Syntax
