import EsmLift.Lift.Engine
import EsmLift.Proofs.Lockstep

/-!
# `Proofs.Isolation` — runs that share a sink do not see each other

Runs one after another write their warnings into one sink, and a run that is stopped by a fault leaves there what it
has written. Each run takes its own warnings out again by their number. What was in the sink before is only carried
along: a pass with a used sink is the pass with a new one, in lockstep, and so are the reports.

## Contents

* `Diagnostics.fresh`: a new sink that works as another one does;
* `Diagnostics.after`: a sink with what another one held in front;
* `Lift.run_after`, `Lift.runProgram_after`: a run with a used sink is a run with a new one;
* `Lift.runEach_isolated`: any number of runs.
-/

namespace EsmLift

namespace Diagnostics

/-- A new sink that works as `d` does. -/
def fresh (d : Diagnostics) : Diagnostics := .empty d.services d.echo

/-- The sink `d` with what `earlier` held in front. -/
def after (earlier d : Diagnostics) : Diagnostics :=
  { d with warnings := earlier.warnings ++ d.warnings, printed := earlier.printed ++ d.printed }

theorem after_fresh (d : Diagnostics) : d.after d.fresh = d := by
  simp [after, fresh, empty]

/-- A warning does not depend on what is in the sink already. -/
theorem warn_after (earlier d : Diagnostics) (node message category : Value) :
    (earlier.after d).warn node message category =
      ((d.warn node message category).1, earlier.after (d.warn node message category).2) := by
  rcases d with ⟨services, echo, warnings, printed⟩
  unfold warn
  dsimp only [after]
  cases warningAt services.checks node message category with
  | error fault => rfl
  | ok w =>
    cases echo with
    | false => simp
    | true => cases hlines : echoLines services.console w <;> simp [hlines]

/-- A sink goes on working as it does. -/
theorem fresh_warn (d : Diagnostics) (node message category : Value) :
    (d.warn node message category).2.fresh = d.fresh := by
  unfold warn
  cases warningAt d.services.checks node message category with
  | error fault => rfl
  | ok w =>
    dsimp only
    split
    · cases echoLines d.services.console w <;> rfl
    · rfl

end Diagnostics

namespace Lift

variable (category : Value) (keepComments : Bool)

/-! ## The pass -/

/-- What the pass remembers, with what `earlier` held in front of its warnings. -/
def Memory.after (earlier : Diagnostics) (m : Memory) : Memory := { m with sink := earlier.after m.sink }

/-- The decision at one node does not depend on earlier warnings. -/
theorem visitor_after (earlier : Diagnostics) :
    Visitor.Along (Memory.after earlier) (visitor category keepComments) (visitor category keepComments) := by
  intro v owner m
  simp only [visitor, Memory.after, Diagnostics.warn_after]
  cases Statement.isCandidate v with
  | error fault => rfl
  | ok candidate =>
    cases candidate with
    | false => rfl
    | true =>
      dsimp only
      split
      · cases Statement.split keepComments v <;> rfl
      · rcases m.sink.warn v (.text rootLevelMessage) category with ⟨fault | _, sink⟩ <;> rfl

/-- The decision at one node does not change how the sink works. -/
theorem fresh_enter (v : Value) (owner : Option Value) (m : Memory) :
    ((visitor category keepComments).enter v owner m).2.sink.fresh = m.sink.fresh := by
  have hfresh := m.sink.fresh_warn v (.text rootLevelMessage) category
  simp only [visitor]
  cases Statement.isCandidate v with
  | error fault => rfl
  | ok candidate =>
    cases candidate with
    | false => rfl
    | true =>
      dsimp only
      split
      · cases Statement.split keepComments v <;> rfl
      · rcases hwarn : m.sink.warn v (.text rootLevelMessage) category with ⟨fault | _, sink⟩ <;>
          (rw [hwarn] at hfresh; exact hfresh)

/-- **A pass with a used sink** is the pass with a new one, but for what the sink held before. -/
theorem run_after (sink : Diagnostics) (tree : Value) :
    run category keepComments sink tree =
      let r := run category keepComments sink.fresh tree
      { r with sink := sink.after r.sink } := by
  have hwalk := walk_map (visitor_after category keepComments sink) (fuel tree) tree
    ⟨sink.fresh, [], []⟩
  simp only [Memory.after, Diagnostics.after_fresh] at hwalk
  simp only [run, hwalk]
  rfl

theorem fresh_run (sink : Diagnostics) (tree : Value) :
    (run category keepComments sink tree).sink.fresh = sink.fresh := by
  apply walk_keeps (P := fun m : Memory => m.sink.fresh = sink.fresh)
  · intro v owner m hm
    rw [fresh_enter, hm]
  · rfl

theorem services_run (sink : Diagnostics) (tree : Value) :
    (run category keepComments sink tree).sink.services = sink.services := by
  have hfresh := congrArg Diagnostics.services (fresh_run category keepComments sink tree)
  exact hfresh

/-! ## Runs -/

variable (config : Config)

/-- **A run with a used sink** gives the report of a run with a new one, and leaves the same tree. -/
theorem runProgram_after (sink : Diagnostics) (tree : Value) :
    runProgram config sink tree =
      let r := runProgram config sink.fresh tree
      { r with sink := sink.after r.sink } := by
  unfold runProgram
  by_cases hprogram : tree.isA .program = true
  · rw [if_pos hprogram, if_pos hprogram, run_after (.text config.warningCategory) config.preserveComments sink tree]
    generalize run (.text config.warningCategory) config.preserveComments sink.fresh tree = r
    -- the warnings and the lines of this run are those behind the earlier ones
    have hreport : reportOn config sink.warnings.length { r with sink := sink.after r.sink }
        = reportOn config sink.fresh.warnings.length r := by
      simp [reportOn, traceOf, Diagnostics.after, Diagnostics.fresh, Diagnostics.empty]
    have hprinted : (sink.after r.sink).printed.drop sink.printed.length
        = r.sink.printed.drop sink.fresh.printed.length := by
      simp [Diagnostics.after, Diagnostics.fresh, Diagnostics.empty]
    dsimp only
    rw [hreport, hprinted]
    cases r.fault with
    | some fault => rfl
    | none =>
      dsimp only
      cases reportOn config sink.fresh.warnings.length r <;> rfl
  · simp only [if_neg hprogram, Diagnostics.after_fresh]

theorem fresh_runProgram (sink : Diagnostics) (tree : Value) :
    (runProgram config sink tree).sink.fresh = sink.fresh := by
  have hfresh := fresh_run (.text config.warningCategory) config.preserveComments sink tree
  unfold runProgram
  split
  · dsimp only
    split
    · exact hfresh
    · split <;> exact hfresh
  · rfl

/-- **Runs are isolated.** Any number of programs are run one after another with one sink, and some of the runs may
end in a fault. Each run gives the report, leaves the tree and prints the lines of a run with a new sink over that
program alone; and after each run the sink holds what it held before the first one, and then the warnings of these
separate runs, in order. -/
theorem runEach_isolated (sink : Diagnostics) (trees : List Value) :
    let alone := runProgram config sink.fresh
    let runs := runEach config sink trees
    runs.map (fun r => (r.report, r.tree, r.printed))
        = trees.map (fun tree => ((alone tree).report, (alone tree).tree, (alone tree).printed)) ∧
      runs.map (fun r => r.sink.warnings)
        = (List.range trees.length).map fun k =>
            sink.warnings ++ (trees.take (k + 1)).flatMap fun tree => (alone tree).sink.warnings := by
  intro alone runs
  induction trees generalizing sink with
  | nil => exact ⟨rfl, rfl⟩
  | cons tree rest ih =>
    have hfirst := runProgram_after config sink tree
    have hfresh := fresh_runProgram config sink tree
    obtain ⟨hreports, hwarnings⟩ := ih (runProgram config sink tree).sink
    rw [hfresh] at hreports hwarnings
    constructor
    · simp only [runs, runEach, List.map_cons]
      rw [hreports, hfirst]
    · simp only [runs, runEach, List.map_cons, List.length_cons, List.range_succ_eq_map, List.map_map]
      rw [hwarnings, hfirst]
      simp [Diagnostics.after, alone, Function.comp_def]

end Lift
end EsmLift
