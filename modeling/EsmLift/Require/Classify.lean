import EsmLift.Require.Grammar
import EsmLift.Syntax.Build

/-!
# `Require.Classify` — the import that a declarator stands for

* `{a, b: c} = require('m')` is `import {a, b as c} from 'm'`; a key `default` gives a default specifier, and
  default specifiers come first;
* `a = require('m')` and `a = require('m').default` are `import a from 'm'`;
* `a = require('m').foo` is `import {foo as a} from 'm'`.

Any other declarator is no import.
-/

namespace EsmLift.Require

/-- A captured value. -/
def captured (m : Captures) (name : String) : Value := (m.lookup name).getD .null

/-- The literal that names the module. -/
def source (m : Captures) : Value :=
  match captured m "sources" with
  | .list _ (s :: _) => s
  | _ => .null

/-- Whether a value is the name of the default export. -/
def isDefault (name : Value) : Bool := name.isText "default"

/-- The specifier that binds an exported name to a local one. -/
def specifier (localName imported : Value) : Except Fault Value := do
  let name ← imported.require "name"
  if isDefault name then return Syntax.importDefaultSpecifier localName
  else return Syntax.importSpecifier localName imported

/-- The specifier of a property `key: value`. -/
def propertySpecifier (property : Value) : Except Fault Value := do
  let localName ← property.require "value"
  let imported ← property.require "key"
  specifier localName imported

/-- The specifiers of properties, the first fault winning. -/
def propertySpecifiers : List Value → Except Fault (List Value)
  | [] => .ok []
  | p :: rest => do
    let s ← propertySpecifier p
    let rest ← propertySpecifiers rest
    return s :: rest

/-- Default specifiers before the others, each group in its order. -/
def defaultsFirst (specifiers : List Value) : List Value :=
  specifiers.filter (·.isA .importDefaultSpecifier) ++
    specifiers.filter (!·.isA .importDefaultSpecifier)

/-- `import id from source` -/
def defaultImport (m : Captures) : Value :=
  Syntax.importDeclaration [Syntax.importDefaultSpecifier (captured m "id")] (source m)

/-- The import that a match of `plain` stands for. -/
def ofPlain (m : Captures) : Except Fault Value := do
  let id := captured m "id"
  if id.isA .objectPattern then
    let properties ← id.require "properties"
    let specifiers ← propertySpecifiers (← properties.items)
    return Syntax.importDeclaration (defaultsFirst specifiers) (source m)
  else return defaultImport m

/-- The import that a match of `member` stands for. -/
def ofMember (m : Captures) : Except Fault Value := do
  let property := captured m "property"
  let name ← property.require "name"
  if isDefault name then return defaultImport m
  else
    let s ← specifier (captured m "id") property
    return Syntax.importDeclaration [s] (source m)

/-- The import that a declarator stands for, if it loads a module. -/
def classify (d : Value) : Except Fault (Option Value) := do
  match ← plain.run d with
  | some m => some <$> ofPlain m
  | none =>
    match ← member.run d with
    | some m => some <$> ofMember m
    | none => return none

/-- The statement that a declarator becomes on its own: an import, or a declaration of the same kind. -/
def statement (kind d : Value) : Except Fault Value := do
  match ← classify d with
  | some imported => return imported
  | none => return Syntax.variableDeclaration kind [d]

end EsmLift.Require
