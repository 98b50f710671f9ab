import EsmLift.Value.Basic

/-!
# `Trace` — what happened during a run

Events are numbered in order. Phases nest: every event belongs to the innermost phase that is open when it
happens, and the end of a phase belongs to that phase. What is noted of an event is any value.

## Contents

* `Trace.Kind`, `Trace.Event`, `Trace`;
* `Trace.openPhase`, `Trace.closePhase`, `Trace.mutation`, `Trace.warning`, `Trace.inspection`;
* `Trace.Call`, `Trace.perform`, `Trace.ofCalls`: these operations as data, and a sequence of them;
* `Trace.Event.value`, `Trace.values`: events as plain data.
-/

namespace EsmLift
namespace Trace

/-- The kinds of events. -/
inductive Kind where
  | phaseStart
  | phaseEnd
  | mutation
  | warning
  | inspection
  deriving DecidableEq, Repr

/-- The text of a kind. -/
def Kind.tag : Kind → String
  | phaseStart => "phase_start"
  | phaseEnd => "phase_end"
  | mutation => "ast_mutation"
  | warning => "analysis_warning"
  | inspection => "inspection"

/-- The kinds in order. -/
def Kind.all : List Kind := [.phaseStart, .phaseEnd, .mutation, .warning, .inspection]

/-- Something that happened, inside the phase `parent`. -/
structure Event where
  id : Nat
  kind : Kind
  description : Value
  parent : Option Nat
  details : Fields
  deriving Repr

end Trace

/-- The events so far, and the phases that are open, innermost first. -/
structure Trace where
  events : List Trace.Event
  opened : List Nat
  deriving Repr

namespace Trace

/-- The trace without events. -/
def empty : Trace := ⟨[], []⟩

/-- The number of the next event. -/
def nextId (t : Trace) : Nat := t.events.length

/-- Adds an event to the innermost open phase. -/
def add (t : Trace) (kind : Kind) (description : Value) (details : Fields) : Trace :=
  { t with events := t.events ++
      [{ id := t.nextId, kind, description, parent := t.opened.head?, details }] }

/-- Opens a phase. -/
def openPhase (t : Trace) (name detail : Value) : Trace :=
  { t.add .phaseStart name [("detail", detail)] with opened := t.nextId :: t.opened }

/-- Closes the innermost phase; without an open phase nothing happens. -/
def closePhase (t : Trace) : Trace :=
  match t.opened with
  | [] => t
  | _ :: rest => { t.add .phaseEnd (.text "End Phase") [] with opened := rest }

/-- A node was replaced. -/
def mutation (t : Trace) (type : String) (before after : Value) : Trace :=
  t.add .mutation (.text ("Transformed " ++ type)) [("before", before), ("after", after)]

/-- A warning was given. -/
def warning (t : Trace) (message : Value) : Trace :=
  t.add .warning message [("level", .text "warning")]

/-- A node was looked at and left as it is. -/
def inspection (t : Trace) (node : String) (outcome detail : Value) : Trace :=
  t.add .inspection (.text ("Inspecting '" ++ node ++ "'")) [("outcome", outcome), ("detail", detail)]

/-- What can be asked of a trace. -/
inductive Call where
  | openPhase (name detail : Value)
  | closePhase
  | mutation (type : String) (before after : Value)
  | warning (message : Value)
  | inspection (node : String) (outcome detail : Value)
  deriving Repr

/-- Does what a call asks. -/
def perform (t : Trace) : Call → Trace
  | .openPhase name detail => t.openPhase name detail
  | .closePhase => t.closePhase
  | .mutation type before after => t.mutation type before after
  | .warning message => t.warning message
  | .inspection node outcome detail => t.inspection node outcome detail

/-- The number of the phase that a call opens. -/
def newPhase? (t : Trace) : Call → Option Nat
  | .openPhase .. => some t.nextId
  | _ => none

/-- The trace of calls, one after another. -/
def ofCalls (calls : List Call) : Trace := calls.foldl perform empty

/-- The name of an event. -/
def idText (id : Nat) : String := "e" ++ toString id

/-- An event as plain data. -/
def Event.value (e : Event) : Value :=
  .new [("id", .text (idText e.id)), ("type", .text e.kind.tag), ("description", e.description),
    ("parent_id", match e.parent with
      | some id => .text (idText id)
      | none => .null),
    ("metadata", .new e.details)]

/-- The events as plain data. -/
def values (t : Trace) : List Value := t.events.map Event.value

end Trace
end EsmLift
