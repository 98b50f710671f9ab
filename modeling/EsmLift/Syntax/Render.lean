import EsmLift.Syntax.NodeType
import EsmLift.Value.Show

/-!
# `Syntax.Render` — a statement in one line

An approximate text of imports and variable declarations for messages: `import a, {b as c} from 'x';` and
`const a, b = ...;`. Any other node is shown by its type. A number that cannot be written is a fault.
-/

namespace EsmLift.Syntax

/-- A field of a value, null if it is absent. -/
def part (v : Value) (key : String) : Value := (v.get? key).getD .null

/-- The name of a node: that of an identifier, the value of a literal, the type of any other. -/
def nameOf (v : Value) : Except Fault String :=
  if !v.isObject then .ok "?"
  else if v.isA .identifier then (part v "name").say
  else if v.isA .literal then (part v "value").write
  else (part v "type").say.map fun type => "<" ++ type ++ ">"

/-- A clause of an import: a default binding or a named one. -/
inductive Clause where
  | byDefault (text : String)
  | named (text : String)
  deriving DecidableEq, Repr

/-- The clause that a specifier contributes. -/
def clauseOf (specifier : Value) : Except Fault Clause := do
  let localName ← nameOf (← specifier.field "local")
  if specifier.isA .importDefaultSpecifier then return .byDefault localName
  else
    let imported ← nameOf (← specifier.field "imported")
    return .named (if imported == localName then imported else imported ++ " as " ++ localName)

/-- The clauses of specifiers, the first fault winning. -/
def clausesOf : List Value → Except Fault (List Clause)
  | [] => .ok []
  | s :: rest => do
    let clause ← clauseOf s
    let rest ← clausesOf rest
    return clause :: rest

/-- The texts of the default bindings. -/
def defaults (clauses : List Clause) : List String :=
  clauses.filterMap fun
    | .byDefault s => some s
    | .named _ => none

/-- The texts of the named bindings. -/
def nameds (clauses : List Clause) : List String :=
  clauses.filterMap fun
    | .byDefault _ => none
    | .named s => some s

/-- The part of an import between `import` and `from`: default bindings, then named ones in braces. -/
def clauseText (clauses : List Clause) : String :=
  let braces := "\x7b" ++ ", ".intercalate (nameds clauses) ++ "\x7d"
  ", ".intercalate
    (defaults clauses ++
      if (nameds clauses).isEmpty && !(defaults clauses).isEmpty then [] else [braces])

/-- The items of a list in a field; no items if the field is absent. -/
def itemsIn (v : Value) (key : String) : Except Fault (List Value) :=
  ((v.get? key).getD (.newList [])).items

/-- The names of declarators, the first fault winning. -/
def declaratorNames : List Value → Except Fault (List String)
  | [] => .ok []
  | d :: rest => do
    let name ← nameOf (← d.field "id")
    let rest ← declaratorNames rest
    return name :: rest

/-- A node in one line. -/
def render (v : Value) : Except Fault String := do
  let type ← v.field "type"
  if type.isText NodeType.importDeclaration.tag then
    let clauses ← clausesOf (← itemsIn v "specifiers")
    let source ← nameOf (part v "source")
    return "import " ++ clauseText clauses ++ " from " ++ source ++ ";"
  else if type.isText NodeType.variableDeclaration.tag then
    let names ← declaratorNames (← itemsIn v "declarations")
    let kind ← (part v "kind").say
    return kind ++ " " ++ ", ".intercalate names ++ " = ...;"
  else
    let type ← type.say
    return "<" ++ type ++ ">"

end EsmLift.Syntax
