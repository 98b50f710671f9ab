import EsmLift.Validation.Field

/-!
# `Report` — warnings, and the summary of a run

Both records can be read from fields of any value, with given checks; every issue is reported at once.

## Contents

* `Warning`, `Warning.ofFields`;
* `Report`, `Report.ofFields`, `Report.hasWarnings`.
-/

namespace EsmLift

/-- A warning about a place in a program. -/
structure Warning where
  /-- The line on which the node starts, `0` if unknown. -/
  line : Int
  message : String
  category : String
  deriving DecidableEq, Repr

/-- The category of warnings unless another one is chosen. -/
def defaultCategory : String := "commonjs"

namespace Warning

/-- A warning from its fields. -/
def ofFields (checks : Checks) (fields : Fields) : Validation.Checked Warning :=
  let line := Validation.optional "line" 0 (fun v : Value => Validation.single (checks.int v.shape))
    (fields.lookup "line")
  let message := Validation.required "message"
    (fun v : Value => Validation.single (checks.text v.shape)) (fields.lookup "message")
  let category := Validation.optional "category" defaultCategory
    (fun v : Value => Validation.single (checks.text v.shape)) (fields.lookup "category")
  match Validation.both line (Validation.both message category) with
  | .ok (line, message, category) => .ok { line, message, category }
  | .error issues => .error issues

/-- A warning from a value, which has to be an object. -/
def ofValue (checks : Checks) : Value → Validation.Checked Warning
  | .object _ fields => ofFields checks fields
  | _ => .error [{ path := [], problem := .warningType }]

end Warning

/-- The summary of a run. -/
structure Report where
  /-- The number of statements that were replaced. -/
  replaced : Int
  warnings : List Warning
  /-- False if a candidate stands where it may not. -/
  success : Bool
  /-- What happened, step by step. -/
  events : List Value

namespace Report

/-- Whether there is a warning. -/
def hasWarnings (r : Report) : Bool := !r.warnings.isEmpty

/-- A list, item by item. -/
def listOf {α : Type} (check : Value → Validation.Checked α) : Value → Validation.Checked (List α)
  | .list _ items => Validation.each check 0 items
  | _ => .error [{ path := [], problem := .listType }]

/-- An event: any object. -/
def event : Value → Validation.Checked Value
  | .object mark fields => .ok (.object mark fields)
  | _ => .error [{ path := [], problem := .objectType }]

/-- A report from its fields. -/
def ofFields (checks : Checks) (fields : Fields) : Validation.Checked Report :=
  let replaced := Validation.optional "replaced" 0
    (fun v : Value => Validation.single (checks.int v.shape)) (fields.lookup "replaced")
  let warnings := Validation.optional "warnings" [] (listOf (Warning.ofValue checks)) (fields.lookup "warnings")
  let success := Validation.optional "success" true
    (fun v : Value => Validation.single (checks.bool v.shape)) (fields.lookup "success")
  let events := Validation.optional "trace_events" [] (listOf event) (fields.lookup "trace_events")
  match Validation.both (Validation.both replaced warnings) (Validation.both success events) with
  | .ok ((replaced, warnings), success, events) => .ok { replaced, warnings, success, events }
  | .error issues => .error issues

end Report
end EsmLift
