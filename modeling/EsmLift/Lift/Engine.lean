import EsmLift.Config.Settings
import EsmLift.Lift.Pass
import EsmLift.Syntax.Render
import EsmLift.Trace

/-!
# `Lift.Engine` — a run over a program, with a report

The root has to be a program. The pass is followed by a trace of what it did, written from the tree as it is
afterwards: the replacements, the rejected candidates, and the warnings.

## Contents

* `traceOf`: the trace of a pass;
* `Run`, `runProgram`: a run over one program;
* `runEach`: runs over programs one after another, with one sink.
-/

namespace EsmLift.Lift

/-- The name of the only phase of a run. -/
def phaseName : String := "CommonJS Imports"

/-- What the phase does. -/
def phaseDetail : String := "require() -> import"

/-- What a tree is, if it is no program. -/
def foundInstead (tree : Value) : Except Fault String :=
  match tree with
  | .object _ fields => ((fields.lookup "type").getD .null).say
  | v => .ok v.kindName

/-- Why a tree that is no program is not run over. -/
def refusal (tree : Value) : Fault :=
  match foundInstead tree with
  | .ok found => .notProgram found
  | .error fault => fault

/-- Statements in one line each, the first fault winning. -/
def renderAll : List Value → Except Fault (List String)
  | [] => .ok []
  | v :: rest => do
    let line ← Syntax.render v
    let rest ← renderAll rest
    return line :: rest

/-- Adds the replacements to a trace. -/
def traceReplacements (t : Trace) : List Replacement → Except Fault Trace
  | [] => .ok t
  | r :: rest => do
    let after ← renderAll r.nodes
    let before ← Syntax.render r.target
    traceReplacements
      (t.mutation NodeType.variableDeclaration.tag (.text before) (.text ("\n".intercalate after))) rest

/-- Adds the rejected candidates to a trace. -/
def traceRejected (t : Trace) : List Value → Except Fault Trace
  | [] => .ok t
  | v :: rest => do
    let line ← Syntax.render v
    traceRejected (t.inspection line (.text "rejected") (.text "not at program root")) rest

/-- Adds warnings to a trace. -/
def traceWarnings (t : Trace) : List Warning → Except Fault Trace
  | [] => .ok t
  | w :: rest => do
    let line ← writeInt w.line
    traceWarnings (t.warning (.text (line ++ ": " ++ w.message))) rest

/-- The trace of a pass. -/
def traceOf (r : Result) (warnings : List Warning) : Except Fault Trace := do
  let t := Trace.empty.openPhase (.text phaseName) (.text phaseDetail)
  let t ← traceReplacements t r.replacements
  let t ← traceRejected t r.rejected
  let t ← traceWarnings t warnings
  return t.closePhase

/-- The lines that announce replacements. -/
def announcement (console : Console) (count : Nat) : Except Fault (List String) :=
  if count = 0 then .ok []
  else (console.log .success ("Rewrote " ++ toString count ++ " require statement(s)")).mapError .unshown

/-- The end of a run. The tree and the sink show what was done, also after a fault. -/
structure Run where
  report : Except Fault Report
  tree : Value
  sink : Diagnostics
  /-- The lines on the console. -/
  printed : List String

/-- The report on a pass and the lines that announce it; `known` warnings were there before. -/
def reportOn (config : Config) (known : Nat) (r : Result) : Except Fault (Report × List String) := do
  let warnings := r.sink.warnings.drop known
  let trace ← traceOf r warnings
  let lines ← announcement r.sink.services.console r.replacements.length
  return ({ replaced := r.replacements.length
            warnings
            success := !(config.strictPlacement && !r.rejected.isEmpty)
            events := trace.values }, lines)

/-- Runs the pass over a program. -/
def runProgram (config : Config) (sink : Diagnostics) (tree : Value) : Run :=
  if tree.isA .program then
    let r := run (.text config.warningCategory) config.preserveComments sink tree
    let echoed := r.sink.printed.drop sink.printed.length
    match r.fault with
    | some fault => { report := .error fault, tree := r.tree, sink := r.sink, printed := echoed }
    | none =>
      match reportOn config sink.warnings.length r with
      | .error fault => { report := .error fault, tree := r.tree, sink := r.sink, printed := echoed }
      | .ok (report, lines) =>
        { report := .ok report, tree := r.tree, sink := r.sink, printed := echoed ++ lines }
  else { report := .error (refusal tree), tree, sink, printed := [] }

/-- Runs over programs one after another, with one sink. -/
def runEach (config : Config) (sink : Diagnostics) : List Value → List Run
  | [] => []
  | tree :: rest =>
    let r := runProgram config sink tree
    r :: runEach config r.sink rest

end EsmLift.Lift
