import EsmLift.Proofs.Entries
import EsmLift.Proofs.Fuel
import EsmLift.Proofs.Recursion
import EsmLift.Standard

/-!
# `Proofs.Census` — the questions of a pass, counted

`Visitor.questions` are the nodes that a walk asks about, each with its owner. For the pass their number is bounded by
`Lift.entries`: by the nodes that are reached in the tree that was given, and by what the pieces of a statement ask
again about their common kind.

## Contents

* `Lift.kindCost`, `KindAfter.cost`: the questions about the common kind of pieces;
* `Lift.Stage.cost`, `Lift.Passes.length_le`: the questions of a pass through a part of the tree;
* `Lift.run_terminates`: the questions of a pass.
-/

namespace EsmLift

open Value

/-! ## The common kind -/

namespace Lift

variable (keepComments : Bool)

/-- The questions about the common kind of pieces, `n` of which are plain. -/
def kindCost (kind : Value) (n : Nat) : Nat :=
  if n = 0 then 0 else entriesSlot keepComments false kind + (n - 1) * kindNodes keepComments kind

variable {keepComments : Bool}

/-- Where nothing is pending in a kind, each piece asks as much about it. -/
theorem entriesSlot_kind {kind : Value} (h : pendingSlot false kind = []) :
    entriesSlot keepComments false kind = kindNodes keepComments kind := by
  have hself : liftedSlot keepComments false kind.erase = kind.erase := by
    refine (lifted_eq_self keepComments kind.erase).2 false ?_
    rw [pendingSlot_erase, h]
    rfl
  rw [kindNodes, hself, entriesSlot_of_quiet .null false kind h, length_reachedSlot_erase .null .null]

end Lift

/-- Plain pieces ask about the kind as it stands, at least. -/
theorem Lift.entriesSlot_le_kindCost (keepComments plain : Bool) (kind : Value) (n : Nat) :
    (if plain then entriesSlot keepComments false kind else 0)
      ≤ kindCost keepComments kind ((if plain then 1 else 0) + n) := by
  cases plain with
  | false => exact Nat.zero_le _
  | true =>
    rw [if_pos rfl, if_pos rfl, kindCost, if_neg (by omega : ¬1 + n = 0)]
    exact Nat.le_add_right _ _

/-- The first plain piece asks about the kind as it stands, and leaves it lifted to the others. -/
theorem KindAfter.cost {keepComments : Bool} {p : Piece} {kind kind' : Value} {t t' : Trail Lift.Memory}
    (h : KindAfter keepComments p kind kind' t t') (n : Nat) :
    (if p.plain then Lift.entriesSlot keepComments false kind else 0) + Lift.kindCost keepComments kind' n
      ≤ Lift.kindCost keepComments kind ((if p.plain then 1 else 0) + n) := by
  cases hplain : p.plain with
  | false =>
    refine Nat.le_of_eq ?_
    rw [h.same hplain, if_neg Bool.false_ne_true, if_neg Bool.false_ne_true, Nat.zero_add, Nat.zero_add]
  | true =>
    rw [if_pos rfl, if_pos rfl]
    have hnone : pendingSlot false kind' = [] := by
      rcases h.pending with hnone | ⟨_, hno⟩
      · exact hnone
      · exact absurd (hno.symm.trans hplain) Bool.false_ne_true
    have hnodes : Lift.kindNodes keepComments kind' = Lift.kindNodes keepComments kind := by
      rw [Lift.kindNodes, h.lifted, Lift.kindNodes]
    rw [Lift.kindCost, Lift.kindCost, Lift.entriesSlot_kind hnone, hnodes, if_neg (by omega : ¬1 + n = 0),
      Nat.add_sub_cancel_left]
    cases n with
    | zero => rw [if_pos rfl]; omega
    | succ n => rw [if_neg (Nat.succ_ne_zero n), Nat.add_sub_cancel, Nat.succ_mul]; omega

/-! ## Counting -/

namespace Lift

variable (keepComments : Bool)

/-- The questions of the pass, at most. -/
def Stage.cost : Stage → Trail Memory → Nat
  | .children v, _ => entries keepComments v
  | .fields program _ _ todo, _ => entriesFields keepComments program todo
  | .slot program _ key v, _ => if Syntax.metadataKeys.contains key then 0 else entriesSlot keepComments program v
  | .items program _ _ todo, _ => entriesItems keepComments program todo
  | .pieces kind ps, t => kindCost keepComments (t.current kind) (ps.countP fun p => p.plain) +
      (ps.map fun p => entriesFields keepComments false p.fields).sum

variable {keepComments : Bool} {category : Value} {n : Nat} {stage : Stage} {t : Trail Memory} {qs : List Question}

/-- A candidate pays for its pieces, and for the repeats. -/
theorem Stage.Walkable.cost_opened {owner : List Value → Value} {done rest : List Value} {v kind : Value}
    {r : Replacement} {ps : List Piece} {t' : Trail Memory} (hw : (Stage.items true owner done (v :: rest)).Walkable t)
    (hopen : Statement.Opened keepComments v r kind ps t t') :
    (Stage.pieces kind ps).cost keepComments t' ≤ repeats keepComments v + entries keepComments v := by
  have hkind := hw.current_opened hopen
  obtain ⟨_, _, _, hr, _⟩ := hw
  have hrv := Walk.item_ready (Statement.isNode_of_loads hopen.loads) hr
  obtain ⟨hplains, hcost⟩ := Statement.entries_split hopen.loads (fun m hm => (hrv.bounded m hm).1) hopen.split
    hopen.nodes hopen.parted
  rw [Stage.cost, hkind, hplains, kindCost, repeats, at_eq hopen.parted.kindOf]
  split <;> omega

/-- An item, and those that follow. -/
theorem entriesItems_node (program : Bool) {v : Value} (rest : List Value) (hnode : v.isNode = true) :
    entriesItems keepComments program (v :: rest)
      = 1 + (if program && Statement.loads v then repeats keepComments v else 0) + entries keepComments v + entriesItems keepComments program rest := by
  rw [entriesItems, if_pos hnode]

/-- The first piece, and those that follow. -/
theorem Stage.cost_piece (kind : Value) (p : Piece) (rest : List Piece) (t : Trail Memory) :
    (Stage.pieces kind (p :: rest)).cost keepComments t
      = kindCost keepComments (t.current kind) ((if p.plain then 1 else 0) + rest.countP fun p => p.plain)
        + (entriesFields keepComments false p.fields
          + (rest.map fun p => entriesFields keepComments false p.fields).sum) := by
  rw [Stage.cost, List.countP_cons, Nat.add_comm (rest.countP _), List.map_cons, List.sum_cons]

/-- **The questions of a pass through a part of the tree**, step by step. -/
theorem Passes.length_le {w : Walked Memory stage.task.Result} (h : Passes category keepComments n stage t qs w) :
    qs.length ≤ stage.cost keepComments t := by
  induction h with
  | exhausted | noFields | metadata | slotOther | noItems | noPieces => exact Nat.zero_le _
  | object _ _ _ ih => exact ih
  | fieldStop _ _ _ ih =>
    rw [Stage.cost, entriesFields]
    exact Nat.le_trans ih (Nat.le_add_right _ _)
  | field _ _ _ _ ih ih' =>
    rw [Stage.cost, entriesFields, List.length_append]
    exact Nat.add_le_add ih ih'
  | slotList _ hkey _ ih =>
    rw [Stage.cost, hkey, if_neg Bool.false_ne_true, entriesSlot]
    exact ih
  | slotFault _ hkey hnode _ | slotSplice _ hkey hnode _ =>
    rw [Stage.cost, hkey, if_neg Bool.false_ne_true, entriesSlot_node keepComments _ hnode]
    exact Nat.le_add_right _ _
  | slotKeep _ hkey hnode _ _ ih =>
    rw [Stage.cost] at ih
    rw [Stage.cost, hkey, if_neg Bool.false_ne_true, entriesSlot_node keepComments _ hnode, List.length_cons]
    omega
  | itemOther _ hnode _ ih =>
    rw [Stage.cost, entriesItems]
    exact Nat.le_trans ih (Nat.le_add_left _ _)
  | itemFault _ hnode _ =>
    rw [Stage.cost, entriesItems_node _ _ hnode, List.length_singleton]
    omega
  | itemKeepStop _ hnode _ _ _ ih =>
    rw [Stage.cost] at ih
    rw [Stage.cost, entriesItems_node _ _ hnode, List.length_cons]
    omega
  | itemKeep _ hnode _ _ _ _ ih ih' =>
    rw [Stage.cost] at ih
    rw [Stage.cost] at ih'
    rw [Stage.cost, entriesItems_node _ _ hnode, List.length_cons, List.length_append]
    omega
  | itemSpliceStop hw _ hopen _ _ ih =>
    have hprice := hw.cost_opened hopen
    rw [Stage.cost, entriesItems_node _ _ (Statement.isNode_of_loads hopen.loads), hopen.loads, Bool.true_and,
      if_pos rfl, List.length_cons]
    omega
  | itemSplice hw _ hopen _ _ _ ih ih' =>
    have hprice := hw.cost_opened hopen
    rw [Stage.cost] at ih'
    rw [Stage.cost, entriesItems_node _ _ (Statement.isNode_of_loads hopen.loads), hopen.loads, Bool.true_and,
      if_pos rfl, List.length_cons, List.length_append]
    omega
  | @pieceStop n kind p rest t qs w fault hw _ _ ih =>
    rw [Stage.cost, Piece.entries_value (hw.notProgram p List.mem_cons_self _)] at ih
    have hfirst := entriesSlot_le_kindCost keepComments p.plain (t.current kind) (rest.countP fun p => p.plain)
    rw [Stage.cost_piece]
    omega
  | @piece n kind p rest t qs qs' w later hw hchildren hfault _ ih ih' =>
    rw [Stage.cost, Piece.entries_value (hw.notProgram p List.mem_cons_self _)] at ih
    have hkind := (hw.nextPiece (hchildren.achieved hfault)).2.cost (rest.countP fun p => p.plain)
    rw [Stage.cost] at ih'
    rw [Stage.cost_piece, List.length_append]
    omega

end Lift

/-! ## The pass -/

namespace Lift

variable (category : Value) (keepComments : Bool) (sink : Diagnostics) (tree : Value)

/-- The nodes that a pass asks about, each with its owner. -/
def questionsOf : List Question :=
  (visitor category keepComments).questions (fuel tree) tree ⟨sink, [], []⟩

variable {tree} in
/-- The number of questions is bounded by the tree that is given. -/
theorem length_questionsOf (hjson : tree.isJson = true) :
    (questionsOf category keepComments sink tree).length ≤ 1 + entries keepComments tree := by
  have hwalk := walk_eq tree (visitor category keepComments).observed (fuel tree) (⟨sink, [], []⟩, [])
  let u : Trail (Memory × List Question) := ⟨(⟨sink, [], []⟩, []), (tree.stamp (tree.topMark + 1)).2, []⟩
  have hu : u.map Prod.fst = outset sink tree := rfl
  rcases hask : (visitor category keepComments).ask (placed tree) none (outset sink tree) with ⟨answer, t⟩
  rw [← hu] at hask
  obtain ⟨u', hasked, hmap, hlog⟩ := Visitor.ask_observed hask
  rw [hasked] at hwalk
  have hone : (questionsOf category keepComments sink tree) = [(placed tree, none)] ∨ answer = .ok .keep := by
    cases answer with
    | error fault => exact .inl ((congrArg (fun o => o.memory.2) hwalk).trans hlog)
    | ok answer =>
      cases answer with
      | keep => exact .inr rfl
      | node x => exact (ask_ne_node _ _ _ _ _ _ _ hask).elim
      | splice r => exact .inl ((congrArg (fun o => o.memory.2) hwalk).trans hlog)
  rcases hone with hone | rfl
  · rw [hone, List.length_singleton]
    exact Nat.le_add_right _ _
  · obtain ⟨qs, w, h⟩ := exists_passes category keepComments (fuel tree) (outset_walkable hjson hask)
    have hquestions : questionsOf category keepComments sink tree = (placed tree, none) :: qs := by
      refine (congrArg (fun o => o.memory.2) hwalk).trans ((h.runs.observed hmap).trans ?_)
      rw [hlog]
      rfl
    have hentries : entries keepComments (placed tree) = entries keepComments tree := by
      rw [placed, ← entries_erase, erase_stamp, entries_erase]
    have hle := h.length_le
    rw [Stage.cost, hentries] at hle
    rw [hquestions, List.length_cons]
    omega

/-- **The pass ends, and asks about each node once but for shared kinds.** It is never stopped for want of fuel, and
more fuel changes nothing. It asks about the root, about each node that is reached in the tree that is given, and
again about the nodes in the kind of a statement that is split, from its second plain piece on. -/
theorem run_terminates (hjson : tree.isJson = true) :
    (run category keepComments sink tree).fault ≠ some .exhausted ∧
      (∀ n, fuel tree ≤ n → walk (visitor category keepComments) n tree ⟨sink, [], []⟩
        = walk (visitor category keepComments) (fuel tree) tree ⟨sink, [], []⟩) ∧
      walk (visitor category keepComments) (fuel tree) tree ⟨sink, [], []⟩
        = (walk (visitor category keepComments).observed (fuel tree) tree (⟨sink, [], []⟩, [])).map Prod.fst ∧
      (questionsOf category keepComments sink tree).length
        ≤ 1 + tree.reached.length + ((splits tree).map (repeats keepComments)).sum := by
  refine ⟨run_fueled category keepComments sink hjson, fun n hn => walk_eq_of_le category keepComments sink hjson hn,
    walk_observed .., ?_⟩
  rw [Nat.add_assoc, ← entries_eq_splits]
  exact length_questionsOf category keepComments sink hjson

theorem run_terminates_sample :
    Sample.program.isJson = true ∧
      (run (.text "commonjs") true (.empty .standard false) Sample.program).fault ≠ some .exhausted ∧
      (questionsOf (.text "commonjs") true (.empty .standard false) Sample.program).length
        ≤ 1 + Sample.program.reached.length + ((splits Sample.program).map (repeats true)).sum :=
  ⟨by decide +kernel, (run_terminates _ _ _ _ (by decide +kernel)).1,
    (run_terminates _ _ _ _ (by decide +kernel)).2.2.2⟩

/-- A program whose one statement has a statement as its kind, one declarator that loads a module, and fourteen that
load nothing. -/
def Sample.sharedKind : Value :=
  .new [("type", NodeType.program.value), ("body", .newList [
    .new [("type", NodeType.variableDeclaration.value),
      ("kind", .new [("type", NodeType.variableDeclaration.value), ("kind", .text "var"),
        ("declarations", .newList [declarator (name "b") (load "n")])]),
      ("declarations", .newList (declarator (name "a") (load "m") :: (List.range 14).map fun n => .int n))]])]

/-- The pass rejects the kind once for each plain piece, so it asks more often than there are nodes. -/
theorem entered_sharedKind :
    let r := run (.text "commonjs") true (.empty .standard false) Sample.sharedKind
    Sample.sharedKind.isJson = true ∧ r.fault = none ∧ 1 + Sample.sharedKind.reached.length < r.rejected.length ∧
      ¬(questionsOf (.text "commonjs") true (.empty .standard false) Sample.sharedKind).length
        ≤ 1 + Sample.sharedKind.reached.length := by
  decide +kernel

end Lift

end EsmLift
