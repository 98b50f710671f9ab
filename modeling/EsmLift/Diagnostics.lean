import EsmLift.Console.Basic
import EsmLift.Report
import EsmLift.Syntax.Line
import EsmLift.Value.Show

/-!
# `Diagnostics` — where warnings go

A sink keeps the warnings in order of arrival. An echoing sink also prints each of them on its console, with the text
protected from being read as markup.

## Contents

* `Services`: what a sink is given to work with;
* `Diagnostics`, `Diagnostics.empty`;
* `Diagnostics.echoText`, `Diagnostics.warn`.
-/

namespace EsmLift

/-- A console, and the checks of fields. -/
structure Services where
  console : Console
  checks : Checks

/-- A sink for warnings, with the lines it has printed. -/
structure Diagnostics where
  services : Services
  echo : Bool
  warnings : List Warning
  printed : List String

namespace Diagnostics

/-- A sink without warnings. -/
def empty (services : Services) (echo : Bool) : Diagnostics := ⟨services, echo, [], []⟩

/-- The text of a warning on a console. -/
def echoText (console : Console) (w : Warning) : Except Fault String := do
  let line ← writeInt w.line
  return line ++ ": " ++ console.escape w.message ++ " (" ++ console.escape w.category ++ ")"

/-- The lines of a warning on a console. -/
def echoLines (console : Console) (w : Warning) : Except Fault (List String) := do
  let text ← echoText console w
  (console.log .warning text).mapError .unshown

/-- The warning about a node. -/
def warningAt (checks : Checks) (node message category : Value) : Except Fault Warning := do
  let line ← Syntax.startLine node
  (Warning.ofFields checks [("line", line), ("message", message), ("category", category)]).lift

/-- Adds a warning about a node. It is kept even if it cannot be printed. -/
def warn (d : Diagnostics) (node message category : Value) : Except Fault Unit × Diagnostics :=
  match warningAt d.services.checks node message category with
  | .error fault => (.error fault, d)
  | .ok w =>
    let d := { d with warnings := d.warnings ++ [w] }
    if d.echo then
      match echoLines d.services.console w with
      | .ok lines => (.ok (), { d with printed := d.printed ++ lines })
      | .error fault => (.error fault, d)
    else (.ok (), d)

end Diagnostics
end EsmLift
