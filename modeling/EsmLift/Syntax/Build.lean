import EsmLift.Syntax.NodeType

/-!
# `Syntax.Build` — the nodes that are built

Import declarations with their specifiers, and variable declarations. New nodes have no mark yet; the parts
they are given keep theirs.
-/

namespace EsmLift.Syntax

/-- `import local from …` -/
def importDefaultSpecifier (localName : Value) : Value :=
  .new [("type", NodeType.importDefaultSpecifier.value), ("local", localName)]

/-- `import {imported as local} from …` -/
def importSpecifier (localName imported : Value) : Value :=
  .new [("type", NodeType.importSpecifier.value), ("local", localName), ("imported", imported)]

/-- `import specifiers from source` -/
def importDeclaration (specifiers : List Value) (source : Value) : Value :=
  .new [("type", NodeType.importDeclaration.value), ("specifiers", .newList specifiers),
    ("source", source)]

/-- A declaration of the given kind, usually `var`, `let` or `const`. -/
def variableDeclaration (kind : Value) (declarations : List Value) : Value :=
  .new [("type", NodeType.variableDeclaration.value), ("kind", kind),
    ("declarations", .newList declarations)]

end EsmLift.Syntax
