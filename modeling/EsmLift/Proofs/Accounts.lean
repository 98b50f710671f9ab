import EsmLift.Lift.Engine
import EsmLift.Proofs.Interruption
import EsmLift.Standard

/-!
# `Proofs.Accounts` — the numbers in a report

A report tells how many statements were replaced, which warnings there are, and what happened in which order. All of
this is written down by the visitor and by the trace while the tree changes. Here the same numbers are read off the
trees: the candidates in the lists of the program before the pass, and the candidates anywhere in it afterwards.

## Contents

* `Lift.Passes.calm`: where nothing is pending no replacement is asked for;
* `Lift.Passes.items_counted`, `Lift.Passes.fields_counted`: one replacement for each candidate in a list of the
  program;
* `Trace.Grown`, `Lift.Traced`: the events of a trace, part by part;
* `Lift.runProgram_accounts`.
-/

namespace EsmLift

open Value

/-! ## Replacements that are not asked for -/

namespace Lift

variable {category : Value} {keepComments : Bool} {v : Value} {owner : Option Value} {t t' : Trail Memory}

/-- A node that is kept adds no replacement. -/
theorem replacements_of_keep (hask : (visitor category keepComments).ask v owner t = (.ok .keep, t')) :
    t'.memory.replacements = t.memory.replacements := by
  rcases ask_cases category keepComments v owner t with
    ⟨fault, t'', h⟩ | ⟨_, h⟩ | ⟨_, _, sink, _, h⟩ | ⟨_, _, r, _, h⟩ <;> rw [hask] at h <;> cases h <;> rfl

end Lift

namespace Lift.Passes

variable {category : Value} {keepComments : Bool} {n : Nat} {stage : Stage} {t : Trail Memory} {qs : List Question}

/-- **Where nothing is pending no replacement is asked for**, unless the walk is stopped. -/
theorem calm {w : Walked Memory stage.task.Result} (h : Passes category keepComments n stage t qs w)
    (hq : stage.Quiet t) (hf : w.fault = none) : w.trail.memory.replacements = t.memory.replacements := by
  induction h with
  | noFields | metadata | slotOther | noItems | noPieces => rfl
  | object _ _ _ ih => exact ih hq hf
  | field _ _ hfault _ ih ih' => exact (ih' (hq.field.2 _ _) hf).trans (ih (hq.field.1 _ _) hfault)
  | slotList _ hkey _ ih =>
    dsimp only
    split <;> exact ih (hq.list hkey _) hf
  | slotKeep _ hkey hnode hask _ ih => exact (ih (hq.kept hkey hnode) hf).trans (replacements_of_keep hask)
  | itemOther _ _ _ ih => exact ih (hq.next _ _) hf
  | itemKeep _ hnode hask _ hfault _ ih ih' =>
    exact ((ih' (hq.next _ _) hf).trans (ih (hq.keptItem hnode) hfault)).trans (replacements_of_keep hask)
  | itemSplice _ _ hopen =>
    -- a candidate of a program would be pending
    have hload := hq.not_loads (Statement.isNode_of_loads hopen.loads)
    rw [hopen.loads] at hload
    cases hload
  | piece _ hchildren hfault _ ih ih' =>
    have hrev := (hchildren.still hq.piece).revisions
    exact (ih' (hq.nextPiece hrev) hf).trans (ih hq.piece hfault)
  | exhausted | fieldStop | slotFault | slotSplice | itemFault | itemKeepStop | itemSpliceStop | pieceStop => cases hf

end Lift.Passes

/-! ## One replacement for each candidate -/

namespace Lift

variable {category : Value} {keepComments : Bool} {n : Nat} {stage : Stage} {t : Trail Memory} {qs : List Question}

/-- A pass over items of a program, below which nothing is pending, adds one replacement for each candidate. -/
def Stage.ItemsCounted : (stage : Stage) → Trail Memory → Walked Memory stage.task.Result → Prop
  | .items program _ _ todo, t, w => program = true → pendingItems false todo = [] →
    w.trail.memory.replacements.length = t.memory.replacements.length + todo.countP Statement.loads
  | _, _, _ => True

/-- One item more. -/
theorem length_replacements_cons {v : Value} {rest : List Value} {b : Bool} {before here after : Nat}
    (hload : Statement.loads v = b) (hhere : here = before + if b then 1 else 0)
    (hafter : after = here + rest.countP Statement.loads) :
    after = before + (v :: rest).countP Statement.loads := by
  rw [List.countP_cons, hload, hafter, hhere, Nat.add_assoc, Nat.add_comm (rest.countP _)]

namespace Passes

/-- **The items of a program**, one after another. -/
theorem items_counted {w : Walked Memory stage.task.Result} (h : Passes category keepComments n stage t qs w)
    (hf : w.fault = none) : stage.ItemsCounted t w := by
  induction h with
  | noItems => exact fun _ _ => rfl
  | itemOther _ hnode _ ih =>
    intro hprogram hp
    exact length_replacements_cons (Statement.loads_of_not_node hnode) rfl
      (ih hf hprogram (pending_of_pendingItems hp).2)
  | itemKeep hw hnode hask hchildren hfault _ _ ih =>
    intro hprogram hp
    obtain ⟨howner, _, _, _, _⟩ := hw
    obtain ⟨hquiet, hrest⟩ := pending_of_pendingItems hp
    have hcalm := (hchildren.calm (hquiet hnode) hfault).trans (replacements_of_keep hask)
    exact length_replacements_cons (not_loads_of_keep ((howner _).trans hprogram) hask) (congrArg List.length hcalm)
      (ih hf hprogram hrest)
  | itemSplice hw _ hopen hpieces hfault _ _ ih =>
    intro hprogram hp
    obtain ⟨_, ht, hs, hr, _⟩ := hw
    obtain ⟨hquiet, hrest⟩ := pending_of_pendingItems hp
    have hnode := Statement.isNode_of_loads hopen.loads
    have hcalm := hpieces.calm
      (hopen.quiet ht (hs _ List.mem_cons_self) (Walk.item_ready hnode hr) (hquiet hnode)) hfault
    refine length_replacements_cons hopen.loads ?_ (ih hf hprogram hrest)
    rw [hcalm, hopen.replacements, List.length_append]
    rfl
  | itemFault | itemKeepStop | itemSpliceStop => cases hf
  | @exhausted stage _ _ =>
    cases stage with
    | items => cases hf
    | _ => trivial
  | _ => trivial

/-- The value of a field of a program. -/
theorem slot_counted {owner : Value → Value} {key : String} {v : Value} {w : Walked Memory Value}
    (h : Passes category keepComments n (.slot true owner key v) t qs w)
    (hp : (if Syntax.metadataKeys.contains key then [] else pendingSlot false v) = []) (hf : w.fault = none) :
    w.trail.memory.replacements.length = t.memory.replacements.length
      + (if Syntax.metadataKeys.contains key then [] else Require.listed v).countP Statement.loads := by
  cases h with
  | exhausted => cases hf
  | metadata _ hkey => rw [if_pos hkey]; rfl
  | slotList _ hkey hitems =>
    rw [hkey, if_neg Bool.false_ne_true, pendingSlot] at hp
    have hcount := hitems.items_counted hf rfl (List.append_eq_nil_iff.mp hp).2
    rw [hkey, if_neg Bool.false_ne_true]
    dsimp only
    split <;> exact hcount
  | slotOther _ hkey hlist _ =>
    have hnone : Require.listed v = [] := by
      cases v with
      | list m xs => exact absurd rfl (hlist m xs)
      | _ => rfl
    rw [hkey, if_neg Bool.false_ne_true, hnone]
    rfl
  | slotFault => cases hf
  | slotKeep _ hkey hnode hask hchildren =>
    rw [hkey, if_neg Bool.false_ne_true, pendingSlot_node false hnode] at hp
    have hcalm := (hchildren.calm hp hf).trans (replacements_of_keep hask)
    have hnone : Require.listed v = [] := by
      cases v with
      | object => rfl
      | _ => cases hnode
    rw [hcalm, hkey, if_neg Bool.false_ne_true, hnone]
    rfl
  | slotSplice => cases hf

end Passes

/-- A pass over fields of a program, below whose items nothing is pending. -/
def Stage.FieldsCounted : (stage : Stage) → Trail Memory → Walked Memory stage.task.Result → Prop
  | .fields program _ _ todo, t, w => program = true → pendingFields false todo = [] →
    w.trail.memory.replacements.length = t.memory.replacements.length + (statementsOf todo).countP Statement.loads
  | _, _, _ => True

/-- **The fields of a program**, one after another. -/
theorem Passes.fields_counted {w : Walked Memory stage.task.Result} (h : Passes category keepComments n stage t qs w)
    (hf : w.fault = none) : stage.FieldsCounted t w := by
  induction h with
  | noFields => exact fun _ _ => rfl
  | field _ hhere hfault _ _ ih =>
    rintro rfl hp
    rw [pendingFields] at hp
    obtain ⟨hpv, hprest⟩ := List.append_eq_nil_iff.mp hp
    rw [ih hf rfl hprest, hhere.slot_counted hpv hfault, statementsOf_cons, List.countP_append, Nat.add_assoc]
  | fieldStop => cases hf
  | @exhausted stage _ _ =>
    cases stage with
    | fields => cases hf
    | _ => trivial
  | _ => trivial

end Lift

theorem statementsOf_erase (fs : Fields) :
    statementsOf (fs.map fun f => (f.1, f.2.erase)) = (statementsOf fs).map erase := by
  induction fs with
  | nil => rfl
  | cons f rest ih =>
    obtain ⟨key, v⟩ := f
    have hv : Require.listed v.erase = (Require.listed v).map erase := by
      cases v with
      | list m xs => rw [erase_list]; rfl
      | object m gs => rw [erase_object]; rfl
      | tuple xs => rw [erase_tuple]; rfl
      | _ => rfl
    rw [List.map_cons, statementsOf_cons, statementsOf_cons, List.map_append, ih, hv]
    split <;> rfl

/-- Marks do not matter to what loads a module. -/
theorem Statement.countP_loads_erase (xs : List Value) : (xs.map erase).countP loads = xs.countP loads := by
  rw [List.countP_map]
  exact List.countP_congr fun x _ => by rw [Function.comp_apply, loads_erase]

namespace Lift

variable {category : Value} {keepComments : Bool} {sink : Diagnostics} {tree : Value}

/-- A pass over the only program in a tree replaces each candidate among its statements. -/
theorem length_replacements (hjson : tree.isJson = true) (hprogram : tree.isA .program = true)
    (honly : ∀ p ∈ tree.reached, p.2.isA .program = false)
    (hfault : (run category keepComments sink tree).fault = none) :
    (run category keepComments sink tree).replacements.length = tree.statements.countP Statement.loads := by
  obtain ⟨mark, fs, qs, w, hplaced, hpass, hrun, _, hlength⟩ :=
    run_program category keepComments sink tree hjson hprogram
  obtain ⟨herase, _, hbelow⟩ := only_program hjson honly hplaced
  have hcount := hpass.fields_counted (hrun ▸ hfault) rfl hbelow
  have hstatements : tree.statements.countP Statement.loads = (statementsOf fs).countP Statement.loads := by
    rw [herase, statements, statementsOf_erase, Statement.countP_loads_erase]
  rw [hlength, hcount, hstatements]
  exact Nat.zero_add _

end Lift

/-! ## The trace -/

/-- The trace `t'` has the events of `t` and then those in `news`, all in the phase that is open in both. -/
structure Trace.Grown (t t' : Trace) (news : List Trace.Event) : Prop where
  opened : t'.opened = t.opened
  events : t'.events = t.events ++ news
  inside : ∀ e ∈ news, e.parent = t.opened.head?

namespace Trace.Grown

variable {t t₁ t₂ : Trace} {news later : List Trace.Event}

theorem refl (t : Trace) : Grown t t [] :=
  ⟨rfl, (List.append_nil _).symm, fun _ he => absurd he List.not_mem_nil⟩

/-- One event more. -/
theorem add (t : Trace) (kind : Kind) (description : Value) (details : Fields) :
    Grown t (t.add kind description details)
      [{ id := t.nextId, kind, description, parent := t.opened.head?, details }] :=
  ⟨rfl, rfl, fun e he => by rw [List.mem_singleton.mp he]⟩

theorem trans (h₁ : Grown t t₁ news) (h₂ : Grown t₁ t₂ later) : Grown t t₂ (news ++ later) where
  opened := h₂.opened.trans h₁.opened
  events := by rw [h₂.events, h₁.events, List.append_assoc]
  inside e he := by
    rcases List.mem_append.mp he with he | he
    · exact h₁.inside e he
    · rw [h₂.inside e he, h₁.opened]

end Trace.Grown

namespace Trace

/-- The end of a phase belongs to that phase. -/
theorem closePhase_events {t : Trace} {id : Nat} {rest : List Nat} (h : t.opened = id :: rest) :
    ∃ stop : Event, t.closePhase.events = t.events ++ [stop] ∧ stop.kind = .phaseEnd ∧ stop.parent = some id := by
  unfold closePhase
  rw [h]
  refine ⟨_, rfl, rfl, ?_⟩
  rw [h]
  rfl

/-- The kinds of events, as plain data. -/
theorem map_type_value (news : List Event) :
    (news.map Event.value).map (·.at "type") = (news.map (·.kind)).map fun kind => .text kind.tag := by
  rw [List.map_map, List.map_map]
  rfl

/-- The phase of an event, as plain data. -/
theorem Event.at_parent {e : Event} {id : Nat} (h : e.parent = some id) :
    e.value.at "parent_id" = .text (idText id) := by
  cases e
  cases h
  rfl

end Trace

namespace Lift

/-- One event for each replacement. -/
theorem traceReplacements_grown {t t' : Trace} {rs : List Replacement} (h : traceReplacements t rs = .ok t') :
    ∃ news, t.Grown t' news ∧ news.map (·.kind) = List.replicate rs.length .mutation := by
  induction rs generalizing t with
  | nil =>
    cases h
    exact ⟨[], .refl _, rfl⟩
  | cons r rest ih =>
    obtain ⟨after, _, h⟩ := bind_ok h
    obtain ⟨before, _, h⟩ := bind_ok h
    obtain ⟨news, hgrown, hkinds⟩ := ih h
    refine ⟨_, (Trace.Grown.add ..).trans hgrown, ?_⟩
    rw [List.map_append, hkinds]
    rfl

/-- One event for each rejected candidate. -/
theorem traceRejected_grown {t t' : Trace} {vs : List Value} (h : traceRejected t vs = .ok t') :
    ∃ news, t.Grown t' news ∧ news.map (·.kind) = List.replicate vs.length .inspection := by
  induction vs generalizing t with
  | nil =>
    cases h
    exact ⟨[], .refl _, rfl⟩
  | cons v rest ih =>
    obtain ⟨line, _, h⟩ := bind_ok h
    obtain ⟨news, hgrown, hkinds⟩ := ih h
    refine ⟨_, (Trace.Grown.add ..).trans hgrown, ?_⟩
    rw [List.map_append, hkinds]
    rfl

/-- What the trace says about a warning. -/
def described (w : Warning) : Value := .text (toString w.line ++ ": " ++ w.message)

/-- One event for each warning, with its line and message. -/
theorem traceWarnings_grown {t t' : Trace} {warnings : List Warning} (h : traceWarnings t warnings = .ok t') :
    ∃ news, t.Grown t' news ∧
      news.map (fun e => (e.kind, e.description)) = warnings.map fun w => (.warning, described w) := by
  induction warnings generalizing t with
  | nil =>
    cases h
    exact ⟨[], .refl _, rfl⟩
  | cons w rest ih =>
    obtain ⟨line, hline, h⟩ := bind_ok h
    obtain rfl := eq_of_writeInt hline
    obtain ⟨news, hgrown, hnews⟩ := ih h
    refine ⟨_, (Trace.Grown.add ..).trans hgrown, ?_⟩
    rw [List.map_append, hnews]
    rfl

/-- The events of a run: the start of a phase, the replacements, the rejected candidates, the warnings, and the end of
the phase; all but the first belong to the phase that the first one starts. -/
def Traced (replaced rejected : Nat) (warnings : List Warning) (events : List Value) : Prop :=
  ∃ start mutations inspections warned stop,
    events = start :: (mutations ++ inspections ++ warned ++ [stop]) ∧
    start.at "type" = .text "phase_start" ∧
    mutations.map (·.at "type") = List.replicate replaced (.text "ast_mutation") ∧
    inspections.map (·.at "type") = List.replicate rejected (.text "inspection") ∧
    warned.map (fun e => (e.at "type", e.at "description"))
      = warnings.map (fun w => (.text "analysis_warning", described w)) ∧
    stop.at "type" = .text "phase_end" ∧
    ∀ e ∈ mutations ++ inspections ++ warned ++ [stop], e.at "parent_id" = start.at "id"

/-- **The trace of a pass.** -/
theorem traceOf_traced {r : Result} {warnings : List Warning} {trace : Trace} (h : traceOf r warnings = .ok trace) :
    Traced r.replacements.length r.rejected.length warnings trace.values := by
  obtain ⟨t₁, h₁, h⟩ := bind_ok h
  obtain ⟨t₂, h₂, h⟩ := bind_ok h
  obtain ⟨t₃, h₃, h⟩ := bind_ok h
  obtain rfl : t₃.closePhase = trace := Except.ok.inj h
  obtain ⟨mutations, hgrown₁, hmutations⟩ := traceReplacements_grown h₁
  obtain ⟨inspections, hgrown₂, hinspections⟩ := traceRejected_grown h₂
  obtain ⟨warned, hgrown₃, hwarned⟩ := traceWarnings_grown h₃
  have hgrown := (hgrown₁.trans hgrown₂).trans hgrown₃
  obtain ⟨start, hopen, hstart, hid⟩ : ∃ start : Trace.Event,
      Trace.empty.openPhase (.text phaseName) (.text phaseDetail) = ⟨[start], [0]⟩ ∧
        start.kind = .phaseStart ∧ start.id = 0 := ⟨_, rfl, rfl, rfl⟩
  rw [hopen] at hgrown
  -- the only phase is still open, and the last event closes it
  obtain ⟨stop, hstop, hkind, hparent⟩ := Trace.closePhase_events hgrown.opened
  have hinside : ∀ e ∈ mutations ++ inspections ++ warned ++ [stop], e.parent = some 0 := by
    intro e he
    rcases List.mem_append.mp he with he | he
    · exact hgrown.inside e he
    · rw [List.mem_singleton.mp he, hparent]
  refine ⟨start.value, mutations.map Trace.Event.value, inspections.map Trace.Event.value,
    warned.map Trace.Event.value, stop.value, ?_, ?_, ?_, ?_, ?_, ?_, ?_⟩
  · rw [Trace.values, hstop, hgrown.events]
    simp only [List.map_append, List.map_cons, List.map_nil, List.append_assoc, List.cons_append, List.nil_append]
  · exact congrArg (fun kind => Value.text (Trace.Kind.tag kind)) hstart
  · rw [Trace.map_type_value, hmutations, List.map_replicate]
    rfl
  · rw [Trace.map_type_value, hinspections, List.map_replicate]
    rfl
  · have h := congrArg (List.map fun p : Trace.Kind × Value => (Value.text p.1.tag, p.2)) hwarned
    rw [List.map_map, List.map_map] at h
    rw [List.map_map]
    exact h
  · exact congrArg (fun kind => Value.text (Trace.Kind.tag kind)) hkind
  · intro e he
    rw [← List.map_append, ← List.map_append, ← List.map_singleton, ← List.map_append] at he
    obtain ⟨event, hevent, rfl⟩ := List.mem_map.mp he
    rw [Trace.Event.at_parent (hinside event hevent), ← hid]
    rfl

/-! ## The report -/

/-- A report is written from the pass and its trace. -/
theorem reportOn_ok {config : Config} {known : Nat} {r : Result} {report : Report} {lines : List String}
    (h : reportOn config known r = .ok (report, lines)) :
    ∃ trace, traceOf r (r.sink.warnings.drop known) = .ok trace ∧ report =
      { replaced := r.replacements.length
        warnings := r.sink.warnings.drop known
        success := !(config.strictPlacement && !r.rejected.isEmpty)
        events := trace.values } := by
  obtain ⟨trace, htrace, h⟩ := bind_ok h
  obtain ⟨lines', _, h⟩ := bind_ok h
  exact ⟨trace, htrace, (Prod.mk.inj (Except.ok.inj h)).1.symm⟩

/-- A run that returns a report was over a program, and its pass returned. -/
theorem runProgram_ok {config : Config} {sink : Diagnostics} {tree : Value} {report : Report}
    (h : (runProgram config sink tree).report = .ok report) :
    let r := run (.text config.warningCategory) config.preserveComments sink tree
    tree.isA .program = true ∧ r.fault = none ∧ (runProgram config sink tree).tree = r.tree ∧
      ∃ lines, reportOn config sink.warnings.length r = .ok (report, lines) := by
  intro r
  have hr : run (.text config.warningCategory) config.preserveComments sink tree = r := rfl
  unfold runProgram at h ⊢
  by_cases hprogram : tree.isA .program = true
  · rw [if_pos hprogram] at h ⊢
    dsimp only at h ⊢
    rw [hr] at h ⊢
    clear_value r
    cases hfault : r.fault with
    | some fault => rw [hfault] at h; cases h
    | none =>
      rw [hfault] at h
      dsimp only at h ⊢
      rcases hok : reportOn config sink.warnings.length r with fault | ⟨written, lines⟩
      · rw [hok] at h; cases h
      · rw [hok] at h
        cases h
        exact ⟨hprogram, rfl, rfl, lines, rfl⟩
  · rw [if_neg hprogram] at h
    cases h

/-- **The accounts of a run.** The root is the only program that is reached, and the run returns a report. It counts the
candidates among the statements that the program had; there is one warning for each candidate that is left in the tree;
the events are the replacements, the rejected candidates and the warnings, in this order, between the start and the end
of a phase; and the run is a failure if placement is strict and a candidate is left. -/
theorem runProgram_accounts (config : Config) (sink : Diagnostics) (tree : Value) (report : Report)
    (hjson : tree.isJson = true) (honly : ∀ p ∈ tree.reached, p.2.isA .program = false)
    (hreport : (runProgram config sink tree).report = .ok report) :
    let left := ((runProgram config sink tree).tree.visits.map (·.2)).filter Statement.loads
    report.replaced = tree.statements.countP Statement.loads ∧
      report.warnings.length = left.length ∧
      Traced (tree.statements.countP Statement.loads) left.length report.warnings report.events ∧
      (report.success = false ↔ config.strictPlacement = true ∧ left ≠ []) := by
  obtain ⟨hprogram, hfault, htree, lines, hok⟩ := runProgram_ok hreport
  obtain ⟨trace, htrace, rfl⟩ := reportOn_ok hok
  have hdone := run_completed hjson hfault
  have hcount := length_replacements hjson hprogram honly hfault
  rw [htree, ← hdone.rejected]
  generalize run (.text config.warningCategory) config.preserveComments sink tree = r at *
  obtain ⟨ws, hws, habout⟩ := hdone.warned.warnings
  have hnew : r.sink.warnings.drop sink.warnings.length = ws := by rw [hws, List.drop_left]
  refine ⟨by rw [hcount], ?_, ?_, ?_⟩
  · rw [hnew, habout.length_eq]
  · rw [← hcount]
    exact traceOf_traced htrace
  · cases config.strictPlacement <;> cases r.rejected <;> simp

/-- One statement is replaced, and the candidate inside it is left. -/
theorem runProgram_accounts_sample :
    Sample.plain.isJson = true ∧ (∀ p ∈ Sample.plain.reached, p.2.isA .program = false) ∧
      ∃ report, (runProgram ⟨true, true, "commonjs"⟩ (.empty .standard false) Sample.plain).report = .ok report ∧
        report.replaced = 1 ∧ report.warnings.length = 1 ∧ Traced 1 1 report.warnings report.events ∧
        report.success = false := by
  have hjson : Sample.plain.isJson = true := by decide +kernel
  have honly : ∀ p ∈ Sample.plain.reached, p.2.isA .program = false := by decide +kernel
  have hreturns : (runProgram ⟨true, true, "commonjs"⟩ (.empty .standard false) Sample.plain).report.isOk = true := by
    decide +kernel
  have hstatements : Sample.plain.statements.countP Statement.loads = 1 := by decide +kernel
  have hleft : (((runProgram ⟨true, true, "commonjs"⟩ (.empty .standard false) Sample.plain).tree.visits.map (·.2)).filter
      Statement.loads).length = 1 := by decide +kernel
  cases hreport : (runProgram ⟨true, true, "commonjs"⟩ (.empty .standard false) Sample.plain).report with
  | error fault => rw [hreport] at hreturns; cases hreturns
  | ok report =>
    obtain ⟨hreplaced, hwarnings, htraced, hsuccess⟩ := runProgram_accounts _ _ _ report hjson honly hreport
    rw [hstatements] at hreplaced htraced
    rw [hleft] at hwarnings htraced
    exact ⟨hjson, honly, report, rfl, hreplaced, hwarnings, htraced,
      hsuccess.mpr ⟨rfl, List.ne_nil_of_length_pos (by rw [hleft]; decide)⟩⟩

end Lift
end EsmLift
