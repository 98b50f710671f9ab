import EsmLift.Proofs.Gauge

/-!
# `Proofs.Entries` — how often a walk may ask

A walk asks once about each node that it reaches. Splitting a statement adds nothing to that: the import of a
declarator has no more nodes than the declarator, and a plain piece has those of its declarator. But all plain pieces
of a statement have the same `kind`, and each of them walks through it. The first time it is walked through as it
stands in the statement, and then as the first walk left it. So a kind with nodes in it is what makes a walk ask more
often than there are nodes.

## Contents

* `Lift.repeats`: what a shared kind costs;
* `Lift.entries`: the number of questions below an object, at most;
* `entries_erase`, `entries_of_quiet`: marks do not count, and where nothing is pending each node counts once;
* `Lift.questions`, `Statement.entries_split`: the questions as weights, so splitting adds nothing but repeats;
* `Lift.splits`, `Lift.entries_eq_splits`: the number of questions, by the nodes that are reached and the statements
  that are split.
-/

namespace EsmLift

open Value

namespace Lift

variable (keepComments : Bool)

/-- The nodes in a kind, as the pass leaves it. -/
def kindNodes (kind : Value) : Nat := (reachedSlot .null (liftedSlot keepComments false kind.erase)).length

/-- The questions about nodes in the kind of a statement, from its second plain piece on. -/
def repeats (e : Value) : Nat := (Statement.plains e - 1) * kindNodes keepComments (e.at "kind")

mutual
/-- A bound on the questions below an object. -/
def entries : Value → Nat
  | .object m fs => entriesFields ((Value.object m fs).isA .program) fs
  | _ => 0

/-- A bound on the questions in the fields of an object, which is a program or not. -/
def entriesFields (program : Bool) : List (String × Value) → Nat
  | [] => 0
  | (k, v) :: rest =>
    (if Syntax.metadataKeys.contains k then 0 else entriesSlot program v) + entriesFields program rest

/-- A bound on the questions in the value of one field. -/
def entriesSlot (program : Bool) : Value → Nat
  | .list _ xs => entriesItems program xs
  | .object m fs =>
    if (Value.object m fs).isNode then 1 + entriesFields ((Value.object m fs).isA .program) fs else 0
  | _ => 0

/-- A bound on the questions in the items of a list. -/
def entriesItems (program : Bool) : List Value → Nat
  | [] => 0
  | v :: rest =>
    (if v.isNode then 1 + (if program && Statement.loads v then repeats keepComments v else 0) + entries v else 0) +
      entriesItems program rest
end

variable {keepComments : Bool}

/-! ## Small facts -/

theorem entriesSlot_node (keepComments : Bool) {v : Value} (program : Bool) (h : v.isNode = true) :
    entriesSlot keepComments program v = 1 + entries keepComments v := by
  cases v with
  | object m fs => rw [entriesSlot, if_pos h, entries]
  | _ => cases h

theorem entriesFields_append (program : Bool) (fs gs : Fields) :
    entriesFields keepComments program (fs ++ gs)
      = entriesFields keepComments program fs + entriesFields keepComments program gs := by
  induction fs with
  | nil => exact (Nat.zero_add _).symm
  | cons f rest ih =>
    obtain ⟨k, v⟩ := f
    rw [List.cons_append, entriesFields, entriesFields, ih, Nat.add_assoc]

/-! ## Marks do not count -/

end Lift

namespace Value

theorem erase_erase (v : Value) : v.erase.erase = v.erase := by
  induction v using Value.induction with
  | leaf v hv => rw [erase_leaf hv, erase_leaf hv]
  | list m xs ih =>
    rw [erase_list, erase_list, List.map_map]
    exact congrArg _ (List.map_congr_left ih)
  | tuple xs ih =>
    rw [erase_tuple, erase_tuple, List.map_map]
    exact congrArg _ (List.map_congr_left ih)
  | object m fs ih =>
    rw [erase_object, erase_object, List.map_map]
    exact congrArg _ (List.map_congr_left fun f hf => by rw [Function.comp_apply, ih f hf])

theorem at_erase (v : Value) (key : String) : v.erase.at key = (v.at key).erase := by
  unfold Value.at
  rw [get?_erase]
  cases v.get? key <;> rfl

mutual
/-- As many nodes are reached without marks, whoever owns them. -/
theorem length_reached_erase : (v : Value) → v.erase.reached.length = v.reached.length
  | .null | .bool _ | .int _ | .double _ | .text _ | .list .. | .tuple _ => rfl
  | .object m fs => by rw [erase, reached, reached, length_reachedFields_erase _ _ fs]

theorem length_reachedFields_erase (o o' : Value) :
    (fs : List (String × Value)) → (reachedFields o (eraseFields fs)).length = (reachedFields o' fs).length
  | [] => rfl
  | (k, v) :: rest => by
    rw [eraseFields, reachedFields, reachedFields, List.length_append, List.length_append,
      length_reachedFields_erase o o' rest]
    split
    · rfl
    · rw [length_reachedSlot_erase o o' v]

theorem length_reachedSlot_erase (o o' : Value) :
    (v : Value) → (reachedSlot o v.erase).length = (reachedSlot o' v).length
  | .null | .bool _ | .int _ | .double _ | .text _ | .tuple _ => rfl
  | .list m xs => by rw [erase, reachedSlot, reachedSlot, length_reachedItems_erase o o' xs]
  | .object m fs => by
    have hN := isNode_erase (.object m fs)
    rw [erase] at hN ⊢
    rw [reachedSlot, reachedSlot, hN]
    split
    · rw [List.length_cons, List.length_cons, length_reachedFields_erase _ _ fs]
    · rfl

theorem length_reachedItems_erase (o o' : Value) :
    (xs : List Value) → (reachedItems o (eraseItems xs)).length = (reachedItems o' xs).length
  | [] => rfl
  | v :: rest => by
    rw [eraseItems, reachedItems, reachedItems, List.length_append, List.length_append,
      length_reachedItems_erase o o' rest, isNode_erase]
    split
    · rw [List.length_cons, List.length_cons, length_reached_erase v]
    · rfl
end

end Value

theorem Statement.plains_erase (e : Value) : Statement.plains e.erase = Statement.plains e :=
  plains_faithful regular_erase.toFaithful (at_erase e _)

namespace Lift

variable {keepComments : Bool}

theorem kindNodes_erase (kind : Value) : kindNodes keepComments kind.erase = kindNodes keepComments kind := by
  unfold kindNodes
  rw [erase_erase]

theorem repeats_erase (e : Value) : repeats keepComments e.erase = repeats keepComments e := by
  unfold repeats
  rw [Statement.plains_erase, at_erase, kindNodes_erase]

mutual
/-- As many questions are asked without marks. -/
theorem entries_erase : (v : Value) → entries keepComments v.erase = entries keepComments v
  | .null | .bool _ | .int _ | .double _ | .text _ | .list .. | .tuple _ => rfl
  | .object m fs => by
    have hA := regular_erase.isA (.object m fs) .program
    rw [erase] at hA ⊢
    rw [entries, entries, hA, entriesFields_erase _ fs]

theorem entriesFields_erase (program : Bool) : (fs : List (String × Value)) →
    entriesFields keepComments program (eraseFields fs) = entriesFields keepComments program fs
  | [] => rfl
  | (k, v) :: rest => by
    rw [eraseFields, entriesFields, entriesFields, entriesFields_erase program rest, entriesSlot_erase program v]

theorem entriesSlot_erase (program : Bool) :
    (v : Value) → entriesSlot keepComments program v.erase = entriesSlot keepComments program v
  | .null | .bool _ | .int _ | .double _ | .text _ | .tuple _ => rfl
  | .list m xs => by rw [erase, entriesSlot, entriesSlot, entriesItems_erase program xs]
  | .object m fs => by
    have hA := regular_erase.isA (.object m fs) .program
    have hN := isNode_erase (.object m fs)
    rw [erase] at hA hN ⊢
    rw [entriesSlot, entriesSlot, hN, hA, entriesFields_erase _ fs]

theorem entriesItems_erase (program : Bool) : (xs : List Value) →
    entriesItems keepComments program (eraseItems xs) = entriesItems keepComments program xs
  | [] => rfl
  | v :: rest => by
    rw [eraseItems, entriesItems, entriesItems, entriesItems_erase program rest, isNode_erase,
      Statement.loads_erase, repeats_erase, entries_erase v]
end

/-! ## Where nothing is pending -/

mutual
/-- Where nothing is pending, each node counts once. -/
theorem entries_of_quiet : (v : Value) → v.pending = [] → entries keepComments v = v.reached.length
  | .null, _ | .bool _, _ | .int _, _ | .double _, _ | .text _, _ | .list .., _ | .tuple _, _ => rfl
  | .object m fs, h => by
    rw [pending] at h
    rw [entries, reached, entriesFields_of_quiet _ _ fs h]

theorem entriesFields_of_quiet (o : Value) (program : Bool) : (fs : List (String × Value)) →
    pendingFields program fs = [] → entriesFields keepComments program fs = (reachedFields o fs).length
  | [], _ => rfl
  | (k, v) :: rest, h => by
    rw [pendingFields] at h
    obtain ⟨hv, hrest⟩ := List.append_eq_nil_iff.mp h
    rw [entriesFields, reachedFields, List.length_append, entriesFields_of_quiet o program rest hrest]
    split
    · rfl
    · rename_i hk
      rw [if_neg hk] at hv
      rw [entriesSlot_of_quiet o program v hv]

theorem entriesSlot_of_quiet (o : Value) (program : Bool) : (v : Value) → pendingSlot program v = [] →
    entriesSlot keepComments program v = (reachedSlot o v).length
  | .null, _ | .bool _, _ | .int _, _ | .double _, _ | .text _, _ | .tuple _, _ => rfl
  | .list m xs, h => by
    rw [pendingSlot] at h
    rw [entriesSlot, reachedSlot, entriesItems_of_quiet o program xs (List.append_eq_nil_iff.mp h).2]
  | .object m fs, h => by
    rw [pendingSlot] at h
    rw [entriesSlot, reachedSlot]
    split
    · rename_i hn
      rw [if_pos hn] at h
      rw [List.length_cons, entriesFields_of_quiet _ _ fs h, Nat.add_comm]
    · rfl

theorem entriesItems_of_quiet (o : Value) (program : Bool) : (xs : List Value) → pendingItems program xs = [] →
    entriesItems keepComments program xs = (reachedItems o xs).length
  | [], _ => rfl
  | v :: rest, h => by
    rw [pendingItems] at h
    obtain ⟨hv, hrest⟩ := List.append_eq_nil_iff.mp h
    rw [entriesItems, reachedItems, List.length_append, entriesItems_of_quiet o program rest hrest]
    split
    · rename_i hn
      rw [if_pos hn] at hv
      obtain ⟨hself, hbelow⟩ := List.append_eq_nil_iff.mp hv
      have hno : ¬(program && Statement.loads v) = true := fun hp => by rw [if_pos hp] at hself; cases hself
      rw [if_neg hno, List.length_cons, entries_of_quiet v hbelow]
      omega
    · rfl
end

/-! ## Splitting -/

theorem entriesItems_eq_sum (keepComments : Bool) (xs : List Value) : entriesItems keepComments false xs
    = (xs.map fun v => if v.isNode then 1 + entries keepComments v else 0).sum := by
  induction xs with
  | nil => rfl
  | cons v rest ih =>
    rw [entriesItems, ih, List.map_cons, List.sum_cons, Bool.false_and, if_neg Bool.false_ne_true, Nat.add_zero]

theorem entriesFields_eq_sum (keepComments : Bool) (fs : Fields) : entriesFields keepComments false fs
    = (fs.map fun f => if Syntax.metadataKeys.contains f.1 then 0 else entriesSlot keepComments false f.2).sum := by
  induction fs with
  | nil => rfl
  | cons f rest ih =>
    obtain ⟨k, v⟩ := f
    rw [entriesFields, ih, List.map_cons, List.sum_cons]

/-- The questions as weights: one for each node, and none for metadata. -/
def questions (keepComments : Bool) : Gauge where
  slot := entriesSlot keepComments false
  item v := if v.isNode then 1 + entries keepComments v else 0
  note _ := 0
  base _ := 1
  slot_leaf v h := by cases v <;> first | rfl | cases h
  slot_list m xs := by rw [entriesSlot, entriesItems_eq_sum]
  slot_node v h := by rw [entriesSlot_node keepComments false h, if_pos h]
  item_node m fs hn hA := by rw [if_pos hn, entries, hA, entriesFields_eq_sum]
  note_leaf _ _ := rfl
  note_list m xs := by rw [List.map_const', List.sum_replicate_nat, Nat.mul_zero]
  note_items v xs _ := by rw [List.map_const', List.sum_replicate_nat, Nat.mul_zero]
  base_specifier _ _ _ _ _ _ := Nat.le_refl 1

theorem below_questions (keepComments : Bool) {v : Value} (h : v.isA .program = false) :
    (questions keepComments).below v = entries keepComments v := by
  cases v with
  | object m fs =>
    rw [entries, h, entriesFields_eq_sum]
    rfl
  | _ => rfl

end Lift

/-- A declarator that loads nothing becomes a variable declaration, and one that loads something an import. -/
theorem Statement.Becomes.isA {e kind d n : Value} (h : Becomes e kind d n) :
    n.isA (if (Require.load? d).isNone then .variableDeclaration else .importDeclaration) = true := by
  have hstatement {s : Value} (hs : Require.statement kind d = .ok s) :
      s.isA (if (Require.load? d).isNone then .variableDeclaration else .importDeclaration) = true := by
    rw [Require.statement_eq] at hs
    cases hl : Require.load? d with
    | none =>
      rw [hl] at hs
      cases hs
      rfl
    | some l =>
      rw [hl] at hs
      obtain ⟨ss, source, rfl, _⟩ := Load.toImport_ok hs
      rfl
  obtain ⟨s, hs, rfl | hcopied⟩ := h
  · exact hstatement hs
  · obtain ⟨m, fs, rfl⟩ := Require.statement_object hs
    have htype := get?_copyKeys rfl Syntax.commentKeys (by decide) hcopied "type" (by decide)
    rw [isA_congr htype]
    exact hstatement hs

namespace Piece

open Lift

variable {keepComments : Bool} {p : Piece} {kind : Value}

theorem entries_value (h : (p.value kind).isA .program = false) : entries keepComments (p.value kind)
    = (if p.plain then entriesSlot keepComments false kind else 0) + entriesFields keepComments false p.fields := by
  have heq : entries keepComments (p.value kind) = entriesFields keepComments false (p.head kind ++ p.fields) := by
    rw [← h]
    rfl
  rw [heq, entriesFields_append]
  unfold head
  split
  · show 0 + (entriesSlot keepComments false kind + 0) + _ = _
    omega
  · rfl

/-- A piece costs what its declarator costs, but for the kind. -/
theorem entries_becomes {e d n : Value} {next : Nat} (hp : p.Placed e next) (h : Statement.Becomes e kind d n)
    (herase : n.erase = (p.value kind).erase) :
    p.plain = (Require.load? d).isNone ∧
      entriesFields keepComments false p.fields ≤ entriesItems keepComments false [d] := by
  obtain ⟨type, htype, hA⟩ := hp.node kind
  have hvalue := @entries_value keepComments p kind (isA_unique hA htype)
  have hisA (t : NodeType) : n.isA t = (p.value kind).isA t := by
    rw [← regular_erase.isA, herase, regular_erase.isA]
  have hsame : entries keepComments n = entries keepComments (p.value kind) := by
    rw [← entries_erase, herase, entries_erase]
  -- a plain piece is a variable declaration, any other one is an import
  have hplain : p.plain = (Require.load? d).isNone := by
    have hn := h.isA
    rw [hisA] at hn
    cases hp' : p.plain with
    | true =>
      have hvar : (p.value kind).isA .variableDeclaration = true := by
        unfold value head
        rw [if_pos hp']
        rfl
      cases hl : (Require.load? d).isNone with
      | true => rfl
      | false =>
        rw [hl, if_neg Bool.false_ne_true, isA_unique hvar (by decide)] at hn
        cases hn
    | false =>
      cases hl : (Require.load? d).isNone with
      | true =>
        rw [hl, if_pos rfl, isA_unique (hp.imports hp' kind) (by decide)] at hn
        cases hn
      | false => rfl
  have hle := (questions keepComments).becomes_le h
  have hnotes : (questions keepComments).notes e = 0 := rfl
  rw [below_questions keepComments ((hisA .program).trans (isA_unique hA htype)), hnotes, ← hplain, hsame, hvalue] at hle
  refine ⟨hplain, ?_⟩
  have hitem : entriesItems keepComments false [d] = (questions keepComments).item d := by
    rw [entriesItems_eq_sum, List.map_singleton, List.sum_singleton]
    rfl
  have hslot : (questions keepComments).slot kind = entriesSlot keepComments false kind := rfl
  rw [hslot] at hle
  omega

end Piece

namespace Statement

open Lift

variable {keepComments : Bool}

/-- **A split costs what the statement costs**, with the kind counted once. -/
theorem entries_split {e kind : Value} {r : Replacement} {next last : Nat} {ps : List Piece} (hload : loads e = true)
    (he : ∀ m ∈ e.marks, 0 < m) (h : split keepComments e = .ok r)
    (hnodes : stampItems next r.nodes = (ps.map (Piece.value kind), last)) (hparted : Parted e next last kind ps) :
    ps.countP (fun p => p.plain) = plains e ∧ entriesSlot keepComments false kind +
      (ps.map fun p => entriesFields keepComments false p.fields).sum ≤ entries keepComments e := by
  obtain ⟨kind', declarations, ds, hkind, hdecl, hds, hbecomes⟩ := split_becomes h
  obtain rfl : kind' = kind := Option.some.inj (hkind.symm.trans hparted.kindOf)
  obtain ⟨m, ds', rfl⟩ := declarations_list hload (fun c => isTuple_of_marked he) hdecl
  obtain rfl : ds' = ds := Except.ok.inj hds
  have htwo : entriesSlot keepComments false (e.at "kind") + entriesSlot keepComments false (e.at "declarations")
      ≤ (questions keepComments).below e :=
    (questions keepComments).two_at_le e (by decide) (by decide) (by decide)
  rw [at_eq hkind, at_eq hdecl, below_questions keepComments (isA_unique (isA_of_loads hload) (by decide)),
    entriesSlot.eq_def keepComments false (.list m ds')] at htwo
  -- pair declarators and pieces
  have hpairs : List.Forall₂ (fun d p => ∃ n, Becomes e kind' d n ∧ n.erase = (Piece.value kind' p).erase) ds' ps := by
    have herase : r.nodes.map erase = ps.map fun p => (Piece.value kind' p).erase := by
      have heq := erase_stampItems next r.nodes
      rw [hnodes, eraseItems_eq_map, eraseItems_eq_map, List.map_map] at heq
      exact heq.symm
    have hmap : List.Forall₂ (fun d x => ∃ n, Becomes e kind' d n ∧ n.erase = x) ds' (r.nodes.map erase) :=
      List.forall₂_map_right_iff.mpr (hbecomes.imp fun d n hn => ⟨n, hn, rfl⟩)
    rw [herase] at hmap
    exact List.forall₂_map_right_iff.mp hmap
  have hplaced := hparted.placed
  clear hnodes hparted hbecomes
  have hall : ps.countP (fun p => p.plain) = ds'.countP (fun d => (Require.load? d).isNone) ∧
      (ps.map fun p => entriesFields keepComments false p.fields).sum ≤ entriesItems keepComments false ds' := by
    clear htwo hdecl hds
    induction hpairs with
    | nil => exact ⟨rfl, Nat.le_refl _⟩
    | @cons d p ds ps hd _ ih =>
      obtain ⟨hp, hrest⟩ := List.forall_mem_cons.mp hplaced
      obtain ⟨n, hn, herase⟩ := hd
      obtain ⟨hplain, hle⟩ := @Piece.entries_becomes keepComments p kind' e d n next hp hn herase
      obtain ⟨hcount, hsum⟩ := ih hrest
      rw [entriesItems, entriesItems] at hle
      rw [List.countP_cons, List.countP_cons, hcount, hplain, List.map_cons, List.sum_cons, entriesItems]
      exact ⟨rfl, by omega⟩
  refine ⟨hall.1.trans ?_, by dsimp only at htwo; omega⟩
  rw [plains, at_eq hdecl]
  rfl

end Statement

/-! ## By the statements that are split -/

namespace Lift

/-- The candidates in the lists of an object, if it is a program. -/
def splitsOf (v : Value) : List Value := if v.isA .program then v.statements.filter Statement.loads else []

/-- The statements that a pass is going to split: the candidates in the lists of programs, the root or below it. -/
def splits (tree : Value) : List Value := splitsOf tree ++ tree.reached.flatMap fun p => splitsOf p.2

variable (keepComments : Bool)

/-- The questions that are asked again because of statements in the lists of an object, which is a program or not. -/
def due (program : Bool) (xs : List Value) : Nat :=
  ((if program then xs.filter Statement.loads else []).map (repeats keepComments)).sum

/-- The questions that are asked again below nodes. -/
def dueBelow (ps : List (Value × Value)) : Nat := ((ps.flatMap fun p => splitsOf p.2).map (repeats keepComments)).sum

variable {keepComments : Bool}

theorem due_nil (program : Bool) : due keepComments program [] = 0 := by cases program <;> rfl

theorem due_append (program : Bool) (xs ys : List Value) :
    due keepComments program (xs ++ ys) = due keepComments program xs + due keepComments program ys := by
  cases program with
  | false => rfl
  | true => simp only [due, if_true, List.filter_append, List.map_append, List.sum_append]

theorem due_singleton (program : Bool) (v : Value) :
    due keepComments program [v] = if program && Statement.loads v then repeats keepComments v else 0 := by
  cases program with
  | false => rfl
  | true =>
    rw [due, if_pos rfl, List.filter_singleton, Bool.true_and]
    cases Statement.loads v <;> rfl

theorem dueBelow_append (ps qs : List (Value × Value)) :
    dueBelow keepComments (ps ++ qs) = dueBelow keepComments ps + dueBelow keepComments qs := by
  rw [dueBelow, List.flatMap_append, List.map_append, List.sum_append]
  rfl

theorem dueBelow_cons (owner v : Value) (ps : List (Value × Value)) : dueBelow keepComments ((owner, v) :: ps)
    = due keepComments (v.isA .program) v.statements + dueBelow keepComments ps := by
  rw [dueBelow, List.flatMap_cons, List.map_append, List.sum_append]
  rfl

mutual
/-- **Each node counts once**, and so does each repeat. -/
theorem entries_eq : (v : Value) → entries keepComments v
    = v.reached.length + due keepComments (v.isA .program) v.statements + dueBelow keepComments v.reached
  | .null | .bool _ | .int _ | .double _ | .text _ | .list .. | .tuple _ => rfl
  | .object m fs => by rw [entries, reached, statements, entriesFields_eq]

theorem entriesFields_eq (o : Value) (program : Bool) : (fs : List (String × Value)) →
    entriesFields keepComments program fs = (reachedFields o fs).length + due keepComments program (statementsOf fs)
      + dueBelow keepComments (reachedFields o fs)
  | [] => (due_nil program).symm ▸ rfl
  | (k, v) :: rest => by
    have hv := entriesSlot_eq o program v
    rw [entriesFields, reachedFields, statementsOf_cons, due_append, List.length_append, dueBelow_append,
      entriesFields_eq o program rest]
    split
    · rw [due_nil]
      show 0 + _ = 0 + _ + (0 + _) + (0 + _)
      omega
    · omega

theorem entriesSlot_eq (o : Value) (program : Bool) : (v : Value) → entriesSlot keepComments program v
    = (reachedSlot o v).length + due keepComments program (Require.listed v) + dueBelow keepComments (reachedSlot o v)
  | .null | .bool _ | .int _ | .double _ | .text _ | .tuple _ => (due_nil program).symm ▸ rfl
  | .list m xs => by rw [entriesSlot, reachedSlot, Require.listed, entriesItems_eq o program xs]
  | .object m fs => by
    have hnone : due keepComments program (Require.listed (.object m fs)) = 0 := due_nil program
    rw [entriesSlot, reachedSlot, hnone]
    split
    · rw [entriesFields_eq (.object m fs) _ fs, List.length_cons, dueBelow_cons, statements]
      omega
    · rfl

theorem entriesItems_eq (o : Value) (program : Bool) : (xs : List Value) → entriesItems keepComments program xs
    = (reachedItems o xs).length + due keepComments program xs + dueBelow keepComments (reachedItems o xs)
  | [] => (due_nil program).symm ▸ rfl
  | v :: rest => by
    have hdue : due keepComments program (v :: rest)
        = due keepComments program [v] + due keepComments program rest := due_append program [v] rest
    rw [entriesItems, reachedItems, hdue, due_singleton, List.length_append, dueBelow_append,
      entriesItems_eq o program rest]
    split
    · rw [entries_eq v, List.length_cons, dueBelow_cons]
      omega
    · -- what is no node is no candidate
      rename_i hnode
      rw [Statement.loads_of_not_node (Bool.eq_false_iff.mpr hnode), Bool.and_false, if_neg Bool.false_ne_true]
      show 0 + _ = 0 + _ + (0 + _) + (0 + _)
      omega
end

/-- The number of questions, by the nodes that are reached and the statements that are split. -/
theorem entries_eq_splits (tree : Value) : entries keepComments tree
    = tree.reached.length + ((splits tree).map (repeats keepComments)).sum := by
  rw [entries_eq, splits, List.map_append, List.sum_append, Nat.add_assoc]
  rfl

end Lift

end EsmLift
