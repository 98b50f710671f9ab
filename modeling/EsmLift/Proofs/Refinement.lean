import EsmLift.Proofs.Passes
import EsmLift.Standard

/-!
# `Proofs.Refinement` — the pass over a whole tree

A tree as it comes from a reader has no marks and no sharing. The pass marks it, asks about the root and walks
through it. If no fault stops the walk, the specification of the walk speaks about the whole run: the tree looks as
`Lift.lifted` says, no candidate is left where a program owns it, and exactly the candidates that are left were
rejected and warned about, in the order in which they stand in the tree.

## Contents

* `Value.marks_stamp_json`: marks on a tree that had none;
* `Lift.Completed`, `Lift.run_completed`: what a pass that returns leaves behind;
* `Lift.Sample.plain`, `Lift.Sample.program`: programs to try things on;
* `Diagnostics.warn_ok`, `Warned.warnings`: what warnings say.
-/

namespace EsmLift

open Value

/-! ## Trees without marks -/

namespace Value

theorem isJson_iff {v : Value} : v.isJson = true ↔ ∀ c ∈ v.compounds, c.mark = 0 ∧ c.isTuple = false := by
  simp [isJson]

/-- There are no marks to forget in a tree that comes from a reader. -/
theorem erase_of_json {v : Value} (h : v.isJson = true) : v.erase = v := by
  induction v using Value.induction with
  | leaf v hv => exact erase_leaf hv
  | list m xs ih =>
    have hself := isJson_iff.mp h
    have hm : m = 0 := (hself _ (mem_compounds_list.mpr (.inl rfl))).1
    rw [erase_list, hm]
    refine congrArg _ (items_map_self fun x hx => ih x hx (isJson_iff.mpr fun c hc => ?_))
    exact hself c (mem_compounds_list.mpr (.inr ⟨x, hx, hc⟩))
  | tuple xs _ => cases (isJson_iff.mp h _ (mem_compounds_tuple.mpr (.inl rfl))).2
  | object m fs ih =>
    have hself := isJson_iff.mp h
    have hm : m = 0 := (hself _ (mem_compounds_object.mpr (.inl rfl))).1
    rw [erase_object, hm]
    refine congrArg _ (Fields.map_self (g := fun _ v => v.erase) fun f hf => ?_)
    refine ih f hf (isJson_iff.mpr fun c hc => ?_)
    exact hself c (mem_compounds_object.mpr (.inr ⟨f, hf, hc⟩))

/-- The marks on a tree that had none are fresh, and no mark occurs twice. -/
theorem marks_stamp_json {v : Value} (h : v.isJson = true) {next : Nat} (hnext : 0 < next) :
    (∀ m ∈ (v.stamp next).1.marks, 0 < m ∧ m < (v.stamp next).2) ∧ ∀ m, (v.stamp next).1.marks.count m ≤ 1 := by
  have hplain (m : Nat) (hm : 0 < m) : v.marks.count m = 0 := by
    refine List.count_eq_zero.mpr fun hmem => ?_
    obtain ⟨c, hc, rfl⟩ := List.mem_map.mp hmem
    exact absurd (isJson_iff.mp h c hc).1 (Nat.ne_of_gt hm)
  have hpos (m : Nat) (hmem : m ∈ (v.stamp next).1.marks) : 0 < m := by
    obtain ⟨c, hc, rfl⟩ := List.mem_map.mp hmem
    rcases mem_compounds_stamp next v (fun d hd => .inl (isJson_iff.mp h d hd)) hc with ⟨hle, _⟩ | hold
    · exact Nat.lt_of_lt_of_le hnext hle
    · exact hold.2
  refine ⟨fun m hmem => ⟨hpos m hmem, ?_⟩, fun m => ?_⟩
  · have hcount := (count_marks_stamp (hpos m hmem) next v).2
    have hone := List.count_pos_iff.mpr hmem
    rw [hcount, hplain m (hpos m hmem), given] at hone
    split at hone
    · rename_i hgiven; exact hgiven.2
    · exact absurd hone (Nat.lt_irrefl 0)
  · by_cases hmem : m ∈ (v.stamp next).1.marks
    · rw [(count_marks_stamp (hpos m hmem) next v).2, hplain m (hpos m hmem), Nat.zero_add]
      exact given_le_one ..
    · rw [List.count_eq_zero.mpr hmem]
      exact Nat.zero_le 1

/-- Without revisions everything is up to date. -/
theorem settled_nil (v : Value) : v.Settled [] := fun _ _ => .inl rfl

end Value

/-! ## From the walk to the run -/

namespace Lift

variable {category : Value} {keepComments : Bool} {sink : Diagnostics} {tree : Value}

/-- The tree that a pass walks through: the tree it is given, with a mark on everything that had none. -/
def placed (tree : Value) : Value := (tree.stamp (tree.topMark + 1)).1

/-- The trail on which a pass starts. -/
def outset (sink : Diagnostics) (tree : Value) : Trail Memory :=
  { memory := ⟨sink, [], []⟩, next := (tree.stamp (tree.topMark + 1)).2, revisions := [] }

theorem erase_placed (tree : Value) : (placed tree).erase = tree.erase := erase_stamp ..

theorem outset_sound (sink : Diagnostics) (tree : Value) : (outset sink tree).Sound where
  pos := Nat.lt_of_lt_of_le (Nat.succ_pos _) (count_marks_stamp Nat.one_pos (tree.topMark + 1) tree).1
  closed m c hl := by cases hl
  fresh m _ := rfl

theorem outset_ready (sink : Diagnostics) (hjson : tree.isJson = true) :
    (outset sink tree).Ready (placed tree).pending (placed tree).marks := by
  obtain ⟨hbound, honce⟩ := marks_stamp_json hjson (Nat.succ_pos tree.topMark)
  exact ⟨hbound, fun m _ => honce m⟩

/-- A pass that returns has kept the root and walked through it. -/
theorem run_of_returned (h : (run category keepComments sink tree).fault = none) :
    ∃ t, (visitor category keepComments).ask (placed tree) none (outset sink tree) = (.ok .keep, t) ∧
      (Walk.children (visitor category keepComments) (fuel tree) (placed tree) t).fault = none ∧
      run category keepComments sink tree =
        let w := Walk.children (visitor category keepComments) (fuel tree) (placed tree) t
        { tree := w.trail.current w.value
          fault := w.fault
          sink := w.trail.memory.sink
          replacements := w.trail.memory.replacements.map fun r =>
            { target := w.trail.current r.target, nodes := r.nodes.map w.trail.current }
          rejected := w.trail.memory.rejected.map w.trail.current } := by
  unfold run walk at h ⊢
  dsimp only at h ⊢
  rcases hask : (visitor category keepComments).ask (placed tree) none (outset sink tree) with ⟨fault | answer, t⟩
  · rw [placed, outset] at hask
    rw [hask] at h
    cases h
  · rw [placed, outset] at hask
    rw [hask] at h ⊢
    cases answer with
    | keep => exact ⟨t, rfl, h, rfl⟩
    | splice request => cases h
    | node n => exact (ask_ne_node _ _ _ _ _ _ _ hask).elim

/-- What is asked about without a fault is an object. -/
theorem isObject_of_ask {v : Value} {owner : Option Value} {t t' : Trail Memory} {answer : Answer}
    (h : (visitor category keepComments).ask v owner t = (.ok answer, t')) : v.isObject = true := by
  cases hobj : v.isObject with
  | true => rfl
  | false =>
    have hc := Statement.isCandidate_of_not_object hobj
    rcases ask_cases category keepComments v owner t with
      ⟨fault, t'', h'⟩ | ⟨hc', _⟩ | ⟨hc', _⟩ | ⟨hc', _⟩
    · rw [h] at h'; cases h'
    all_goals rw [hc] at hc'; cases hc'

/-- A tree that was just placed can be walked through, once the root is kept. -/
theorem outset_walkable (hjson : tree.isJson = true) {t : Trail Memory}
    (hask : (visitor category keepComments).ask (placed tree) none (outset sink tree) = (.ok .keep, t)) :
    (Stage.children (placed tree)).Walkable t := by
  obtain ⟨hrev, hle⟩ := Visitor.ask_keeps hask
  refine ⟨isObject_of_ask hask, (outset_sound sink tree).later hrev hle, ?_, (outset_ready sink hjson).later hle⟩
  rw [hrev]
  exact settled_nil _

variable (category keepComments sink tree) in
/-- What a pass over a tree without marks leaves behind, if it returns. -/
structure Completed (r : Result) : Prop where
  erased : r.tree.erase = lifted keepComments tree
  marked : ∀ m ∈ r.tree.marks, 0 < m
  clean : ∀ p ∈ r.tree.visits, ∃ b, Statement.isCandidate p.2 = .ok b ∧ (b = true → isProgram p.1 = false)
  rejected : r.rejected = (r.tree.visits.map (·.2)).filter Statement.loads
  warned : Warned category sink r.rejected r.sink

/-- **A pass that returns is complete.** -/
theorem run_completed (hjson : tree.isJson = true) (hfault : (run category keepComments sink tree).fault = none) :
    Completed category keepComments sink tree (run category keepComments sink tree) := by
  obtain ⟨t, hask, hwalk, hrun⟩ := run_of_returned hfault
  have hsound := outset_sound sink tree
  have hready := outset_ready sink hjson
  have hbuilt := (outset_walkable hjson hask).rebuilt hwalk
  generalize Walk.children (visitor category keepComments) (fuel tree) (placed tree) t = w at hbuilt hrun
  -- no value owns the root; a stand-in that is no program does as well
  have hvisited := (hbuilt.asked (o := .null) rfl rfl hask).1
  have htree : w.trail.current w.value = w.value := hbuilt.settled.refresh
  rw [hrun]
  dsimp only
  rw [htree]
  obtain ⟨news, hrej, hnews⟩ := hvisited.rejected
  have hcandidates : candidatesOf ((.null, w.value) :: w.value.reached)
      = (w.value.visits.map (·.2)).filter Statement.loads := by
    rw [candidatesOf, map_snd_visits]
  have hrejected : w.trail.memory.rejected.map w.trail.current
      = (w.value.visits.map (·.2)).filter Statement.loads := by
    rw [hrej, ← hcandidates]
    exact hnews
  refine ⟨?_, fun m hm => ?_, fun p hp => ?_, hrejected, ?_⟩
  · rw [hbuilt.erased, erase_placed, erase_of_json hjson]
  · exact (hvisited.bounded hsound hready.bounded m hm).1
  · rcases List.mem_cons.mp hp with rfl | hp
    · obtain ⟨b, hb, _⟩ := hvisited.clean (.null, w.value) List.mem_cons_self
      exact ⟨b, hb, fun _ => rfl⟩
    · obtain ⟨q, hq, rfl⟩ := List.mem_map.mp hp
      exact hvisited.clean q (List.mem_cons_of_mem _ hq)
  · rw [hrejected, ← hcandidates]
    exact hvisited.warned

/-! ## Sample programs -/

namespace Sample

/-- A name. -/
def name (s : String) : Value := .new [("type", NodeType.identifier.value), ("name", .text s)]

/-- `require(path)` -/
def load (path : String) : Value :=
  .new [("type", NodeType.callExpression.value), ("callee", name "require"),
    ("arguments", .newList [.new [("type", NodeType.literal.value), ("value", .text path)]])]

/-- `id = init` -/
def declarator (id init : Value) : Value :=
  .new [("type", NodeType.variableDeclarator.value), ("id", id), ("init", init)]

/-- `key: localName` in a pattern. -/
def property (key localName : String) : Value :=
  .new [("type", NodeType.property.value), ("key", name key), ("computed", .bool false), ("value", name localName)]

/-- A function whose body, on line 3, loads a module where no import may stand. -/
def function : Value :=
  .new [("type", .text "FunctionExpression"), ("body", .newList [
    .new [("type", NodeType.variableDeclaration.value), ("kind", .text "var"),
      ("declarations", .newList [declarator (name "c") (load "n")]),
      ("loc", .new [("start", .new [("line", .int 3)])])]])]

/-- `const a = require("m"), f = function () { var c = require("n") }, {x: y, default: d} = require("o")`, with a
comment. -/
def declaration : Value :=
  .new [("type", NodeType.variableDeclaration.value), ("kind", .text "const"),
    ("leadingComments", .newList [.text "first"]),
    ("declarations", .newList [declarator (name "a") (load "m"), declarator (name "f") function,
      declarator (.new [("type", NodeType.objectPattern.value),
        ("properties", .newList [property "x" "y", property "default" "d"])]) (load "o")])]

/-- A program of that one statement. -/
def plain : Value := .new [("type", NodeType.program.value), ("body", .newList [declaration])]

/-- A program that holds another program. -/
def program : Value :=
  .new [("type", NodeType.program.value), ("body", .newList [declaration,
    .new [("type", NodeType.program.value), ("body", .newList [
      .new [("type", NodeType.variableDeclaration.value), ("kind", .text "let"),
        ("declarations", .newList [declarator (name "b") (load "p")])]])]])]

end Sample

/-- **The pass is `lifted`.** If the pass over a tree without marks returns, the tree is `lifted` afterwards, with
its fields in the same order; and where no candidate is owned by a program, `lifted` changes nothing. -/
theorem run_eq_lifted (category : Value) (keepComments : Bool) (sink : Diagnostics) (tree : Value)
    (hjson : tree.isJson = true) (hfault : (run category keepComments sink tree).fault = none) :
    (run category keepComments sink tree).tree.erase = lifted keepComments tree ∧
      ∀ v : Value, (∀ p ∈ v.reached, Statement.loads p.2 = true → p.1.isA .program = false) →
        lifted keepComments v = v := by
  refine ⟨(run_completed hjson hfault).erased, fun v hv => ?_⟩
  exact (lifted_eq_self keepComments v).1 (pending_eq_nil v hv)

theorem run_eq_lifted_sample :
    Sample.program.isJson = true ∧ (run (.text "commonjs") true (.empty .standard false) Sample.program).fault = none ∧
      (run (.text "commonjs") true (.empty .standard false) Sample.program).tree.erase = lifted true Sample.program :=
  ⟨by decide +kernel, by decide +kernel, (run_eq_lifted _ _ _ _ (by decide +kernel) (by decide +kernel)).1⟩

end Lift

/-! ## Warnings -/

namespace Validation

theorem both_ok {α β : Type} {a : Checked α} {b : Checked β} {x : α × β} (h : both a b = .ok x) :
    a = .ok x.1 ∧ b = .ok x.2 := by
  cases a <;> cases b <;> cases h
  exact ⟨rfl, rfl⟩

theorem within_single_ok {α : Type} {step : Step} {a : Except Problem α} {x : α}
    (h : within step (single a) = .ok x) : a = .ok x := by
  cases a <;> cases h
  rfl

end Validation

/-- A value that is read as a text is that text. -/
theorem Checks.eq_text {checks : Checks} {v : Value} {s : String} (h : checks.text v.shape = .ok s) : v = .text s := by
  have hshape : v.shape = .text s := (checks.text_iff _ _).mp h
  cases v <;> cases hshape
  rfl

/-- All three fields of a warning pass their checks. -/
theorem Warning.ofFields_ok {checks : Checks} {line message category : Value} {w : Warning}
    (h : ofFields checks [("line", line), ("message", message), ("category", category)] = .ok w) :
    checks.int line.shape = .ok w.line ∧ message = .text w.message ∧ category = .text w.category := by
  unfold ofFields at h
  dsimp only at h
  split at h
  · rename_i hchecks
    cases h
    obtain ⟨hline, hrest⟩ := Validation.both_ok hchecks
    obtain ⟨hmessage, hcategory⟩ := Validation.both_ok hrest
    exact ⟨Validation.within_single_ok hline, Checks.eq_text (Validation.within_single_ok hmessage),
      Checks.eq_text (Validation.within_single_ok hcategory)⟩
  · cases h

/-- A line is a whole number or a truth value, and is read as that number. -/
theorem Syntax.int_startLine (checks : Checks) {v line : Value} (h : startLine v = .ok line) :
    checks.int line.shape = .ok (lineNumber line) := by
  have hline : isLine line = true := by
    unfold startLine at h
    split at h
    · obtain ⟨found, _, hfound⟩ := bind_ok h
      cases hfound
      split
      · assumption
      · rfl
    · cases h
      rfl
  cases line with
  | int i => exact checks.int_int i
  | bool b =>
    show checks.int (.bool b) = _
    rw [checks.int_bool]
    cases b <;> rfl
  | _ => cases hline

/-- The warning about a candidate where none may be: it tells the line of the node. -/
def Warning.About (category v : Value) (w : Warning) : Prop :=
  ∃ line, Syntax.startLine v = .ok line ∧ w.line = Syntax.lineNumber line ∧ w.message = Lift.rootLevelMessage ∧
    category = .text w.category

namespace Diagnostics

variable {checks : Checks} {d d' : Diagnostics} {v message category : Value} {w : Warning}

theorem about_of_warningAt (h : warningAt checks v (.text Lift.rootLevelMessage) category = .ok w) :
    Warning.About category v w := by
  obtain ⟨line, hline, hlift⟩ := bind_ok h
  cases hw : Warning.ofFields checks
      [("line", line), ("message", .text Lift.rootLevelMessage), ("category", category)] with
  | error issues => rw [hw] at hlift; cases hlift
  | ok w' =>
    rw [hw] at hlift
    cases hlift
    obtain ⟨hnumber, hmessage, hcategory⟩ := Warning.ofFields_ok hw
    rw [Syntax.int_startLine checks hline] at hnumber
    exact ⟨line, hline, (Except.ok.inj hnumber).symm, (Value.text.inj hmessage).symm, hcategory⟩

/-- A warning that is accepted is the last one in the sink. -/
theorem warn_ok (h : d.warn v message category = (.ok (), d')) :
    ∃ w, warningAt d.services.checks v message category = .ok w ∧ d'.warnings = d.warnings ++ [w] ∧
      d'.services = d.services ∧ d'.echo = d.echo ∧
      (d.echo = true → ∃ lines, echoLines d.services.console w = .ok lines) := by
  unfold warn at h
  cases hw : warningAt d.services.checks v message category with
  | error fault => rw [hw] at h; cases h
  | ok w =>
    rw [hw] at h
    dsimp only at h
    refine ⟨w, rfl, ?_⟩
    cases hecho : d.echo with
    | false =>
      rw [hecho, if_neg Bool.false_ne_true] at h
      cases h
      exact ⟨rfl, rfl, rfl, fun he => by cases he⟩
    | true =>
      rw [hecho, if_pos rfl] at h
      cases hlog : echoLines d.services.console w with
      | error fault => rw [hlog] at h; cases h
      | ok lines =>
        rw [hlog] at h
        cases h
        exact ⟨rfl, rfl, rfl, fun _ => ⟨lines, rfl⟩⟩

end Diagnostics

/-- Warnings are kept in order, one for each node. -/
theorem Warned.warnings {category : Value} {d d' : Diagnostics} {nodes : List Value}
    (h : Warned category d nodes d') :
    ∃ ws, d'.warnings = d.warnings ++ ws ∧ List.Forall₂ (Warning.About category) nodes ws := by
  induction h with
  | nil d => exact ⟨[], (List.append_nil _).symm, .nil⟩
  | cons first _ ih =>
    obtain ⟨w, hw, hwarnings, _⟩ := Diagnostics.warn_ok first
    obtain ⟨ws, hws, habout⟩ := ih
    refine ⟨w :: ws, ?_, .cons (Diagnostics.about_of_warningAt hw) habout⟩
    rw [hws, hwarnings, List.append_assoc]
    rfl

end EsmLift
