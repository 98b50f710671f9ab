import EsmLift.Proofs.Faults
import EsmLift.Proofs.Refinement
import EsmLift.Proofs.Reserve

/-!
# `Proofs.Fuel` — the pass has enough fuel

The walk of the pass is never stopped for want of fuel if it starts with the reserve of the tree, and the fuel of the
pass is more than that. So the bound in the definition of the pass is not part of what it does.

## Contents

* `Piece.reserve_value_le`, `KindAfter.reserve_le`: the pieces of a statement, as the kind is lifted;
* `Lift.Stage.Affords`, `Lift.Passes.fueled`: a pass with the reserve of what it walks through is not stopped for want
  of fuel;
* `Lift.run_fueled`, `Lift.walk_eq_of_le`: nor is the pass, and more fuel changes nothing.
-/

namespace EsmLift

open Value

/-! ## Pieces with a common kind -/

/-- A kind that needs no more fuel lets a piece need no more fuel. -/
theorem Piece.reserve_value_le {p : Piece} {kind kind' : Value} (h : reserveSlot kind' ≤ reserveSlot kind) :
    (p.value kind').reserve ≤ (p.value kind).reserve := by
  unfold Piece.value Piece.head
  rw [reserve, reserve]
  cases p.plain with
  | false => exact Nat.le_refl _
  | true =>
    have hkey : Syntax.metadataKeys.contains "kind" = false := by decide
    simp only [if_true, List.cons_append, List.nil_append, reserveFields, hkey, Bool.false_eq_true, if_false,
      List.length_cons]
    omega

/-- The kind that a piece leaves to the others needs no more fuel than before. -/
theorem KindAfter.reserve_le {keepComments : Bool} {p : Piece} {kind kind' : Value} {t t' : Trail Lift.Memory}
    (h : KindAfter keepComments p kind kind' t t') : reserveSlot kind' ≤ reserveSlot kind := by
  rcases h.pending with hnone | ⟨rfl, _⟩
  · have hself : Lift.liftedSlot keepComments false kind'.erase = kind'.erase := by
      refine (Lift.lifted_eq_self keepComments kind'.erase).2 false ?_
      rw [pendingSlot_erase, hnone]
      rfl
    have hle := (Lift.reserve_lifted keepComments kind.erase).2 false
    rw [← h.lifted, hself, reserveSlot_erase, reserveSlot_erase] at hle
    exact hle
  · exact Nat.le_refl _

/-- Stamped statements need as much fuel as before, and there are as many of them. -/
theorem Value.reserve_stampItems {next last n : Nat} {xs ys : List Value} (h : stampItems next xs = (ys, last))
    (hxs : ∀ x ∈ xs, x.reserve ≤ n) : (∀ y ∈ ys, y.reserve ≤ n) ∧ ys.length = xs.length := by
  have herase : ys.map erase = xs.map erase := by
    have heq := erase_stampItems next xs
    rwa [h, eraseItems_eq_map, eraseItems_eq_map] at heq
  refine ⟨fun y hy => ?_, by simpa using congrArg List.length herase⟩
  obtain ⟨x, hx, heq⟩ := List.mem_map.mp (herase ▸ List.mem_map_of_mem hy)
  have hle := hxs x hx
  rwa [← reserve_erase x, heq, reserve_erase] at hle

/-! ## Enough fuel -/

namespace Lift

/-- The fuel is enough for a stage. A candidate among items pays for its pieces. -/
def Stage.Affords (n : Nat) : Stage → Trail Memory → Prop
  | .children v, _ => v.reserve ≤ n
  | .fields _ _ _ todo, _ => todo.length + 1 + reserveFields todo ≤ n
  | .slot _ _ key v, _ => (if Syntax.metadataKeys.contains key then 1 else reserveSlot v) ≤ n
  | .items _ _ _ todo, _ => (todo.map toll).sum + 1 + reserveItems todo ≤ n
  | .pieces kind ps, t => ∃ most, (∀ p ∈ ps, (p.value (t.current kind)).reserve ≤ most) ∧ ps.length + 1 + most ≤ n

variable {category : Value} {keepComments : Bool} {n : Nat} {stage : Stage} {t t' : Trail Memory} {qs : List Question}

/-- Every stage needs some fuel. -/
theorem Stage.not_affords_zero (stage : Stage) (t : Trail Memory) : ¬stage.Affords 0 t := by
  intro h
  cases stage with
  | children v =>
    have hle : v.reserve ≤ 0 := h
    have hpos := one_le_reserve v
    omega
  | fields program mark done todo =>
    have hle : todo.length + 1 + reserveFields todo ≤ 0 := h
    omega
  | slot program owner key v =>
    have hle : (if Syntax.metadataKeys.contains key then 1 else reserveSlot v) ≤ 0 := h
    have hpos := one_le_reserveSlot v
    split at hle <;> omega
  | items program owner done todo =>
    have hle : (todo.map toll).sum + 1 + reserveItems todo ≤ 0 := h
    omega
  | pieces kind ps =>
    obtain ⟨most, _, hle⟩ := h
    omega

/-- What is enough for items is enough for the first one, and for those that follow. -/
theorem Stage.Affords.item {program : Bool} {owner : List Value → Value} {done rest : List Value} {v : Value}
    (h : (Stage.items program owner done (v :: rest)).Affords (n + 1) t) :
    v.toll + v.reserve ≤ n ∧ ∀ done' t', (Stage.items program owner done' rest).Affords n t' := by
  have hle : ((v :: rest).map toll).sum + 1 + reserveItems (v :: rest) ≤ n + 1 := h
  have htoll := one_le_toll v
  rw [List.map_cons, List.sum_cons, reserveItems] at hle
  refine ⟨by omega, fun _ _ => ?_⟩
  show (rest.map toll).sum + 1 + reserveItems rest ≤ n
  omega

/-- The toll of a candidate pays for its pieces. -/
theorem Stage.affords_pieces {v kind : Value} {r : Replacement} {ps : List Piece} (h : v.toll + v.reserve ≤ n)
    (hopen : Statement.Opened keepComments v r kind ps t t') (hkind : t'.current kind = kind) :
    (Stage.pieces kind ps).Affords n t' := by
  have hprice : v.toll = (v.at "declarations").width + 10 := if_pos hopen.loads
  obtain ⟨hreserve, hlength⟩ := reserve_stampItems hopen.nodes fun x hx =>
    Statement.reserve_split hopen.loads hopen.split hx
  rw [List.length_map, Statement.length_split hopen.loads hopen.split] at hlength
  refine ⟨v.reserve + 8, fun p hp => ?_, by omega⟩
  rw [hkind]
  exact hreserve _ (List.mem_map_of_mem hp)

/-- **The reserve is enough**, for each stage of the pass. -/
theorem Passes.fueled {w : Walked Memory stage.task.Result} (h : Passes category keepComments n stage t qs w)
    (hn : stage.Affords n t) : w.fault ≠ some .exhausted := by
  induction h with
  | exhausted _ => exact absurd hn (Stage.not_affords_zero _ _)
  | @object n mark fs t qs w _ _ _ ih =>
    have hle : (Value.object mark fs).reserve ≤ n + 1 := hn
    rw [reserve] at hle
    refine ih ?_
    show fs.length + 1 + reserveFields fs ≤ n
    omega
  | @fieldStop n mark program done rest key v t qs here fault _ _ hfault ih =>
    have hle : ((key, v) :: rest).length + 1 + reserveFields ((key, v) :: rest) ≤ n + 1 := hn
    rw [List.length_cons, reserveFields] at hle
    rw [← hfault]
    refine ih ?_
    show (if Syntax.metadataKeys.contains key then 1 else reserveSlot v) ≤ n
    omega
  | @field n mark program done rest key v t qs qs' here later _ _ _ _ _ ih' =>
    have hle : ((key, v) :: rest).length + 1 + reserveFields ((key, v) :: rest) ≤ n + 1 := hn
    rw [List.length_cons, reserveFields] at hle
    refine ih' ?_
    show rest.length + 1 + reserveFields rest ≤ n
    omega
  | @slotList n program owner key mark xs t qs w _ hkey _ ih =>
    have hle : (if Syntax.metadataKeys.contains key then 1 else reserveSlot (.list mark xs)) ≤ n + 1 := hn
    rw [hkey, if_neg Bool.false_ne_true, reserveSlot] at hle
    refine ih ?_
    show (xs.map toll).sum + 1 + reserveItems xs ≤ n
    omega
  | @slotFault n program owner key v t t' fault _ _ _ hask =>
    have hfueled := ask_fueled category keepComments v (some (owner v)) t
    rw [hask] at hfueled
    exact fun h => hfueled (congrArg Except.error (Option.some.inj h))
  | @slotKeep n program owner key v t t' qs w _ hkey hnode _ _ ih =>
    have hle : (if Syntax.metadataKeys.contains key then 1 else reserveSlot v) ≤ n + 1 := hn
    rw [hkey, if_neg Bool.false_ne_true, reserveSlot_object (isObject_of_isNode hnode)] at hle
    refine ih ?_
    show v.reserve ≤ n
    omega
  | itemOther _ _ _ ih => exact ih (hn.item.2 _ _)
  | @itemFault n program owner done rest v t t' fault _ _ hask =>
    have hfueled := ask_fueled category keepComments v (some (owner (done ++ v :: rest))) t
    rw [hask] at hfueled
    exact fun h => hfueled (congrArg Except.error (Option.some.inj h))
  | itemKeepStop _ _ _ _ hfault ih =>
    rw [← hfault]
    exact ih (Nat.le_trans (Nat.le_add_left ..) hn.item.1)
  | itemKeep _ _ _ _ _ _ _ ih' => exact ih' (hn.item.2 _ _)
  | itemSpliceStop hw _ hopen _ hfault ih =>
    rw [← hfault]
    exact ih (Stage.affords_pieces hn.item.1 hopen (hw.current_opened hopen))
  | itemSplice _ _ _ _ _ _ _ ih' => exact ih' (hn.item.2 _ _)
  | @pieceStop n kind p rest t qs w fault _ _ hfault ih =>
    obtain ⟨most, hmost, hle⟩ := hn
    rw [List.length_cons] at hle
    rw [← hfault]
    exact ih (Nat.le_trans (hmost p List.mem_cons_self) (by omega))
  | @piece n kind p rest t qs qs' w later hw hchildren hfault _ _ ih' =>
    obtain ⟨most, hmost, hle⟩ := hn
    rw [List.length_cons] at hle
    have hkind := (hw.nextPiece (hchildren.achieved hfault)).2
    refine ih' ⟨most, fun q hq => ?_, by omega⟩
    exact Nat.le_trans (Piece.reserve_value_le hkind.reserve_le) (hmost q (List.mem_cons_of_mem _ hq))
  | _ => nofun

end Lift

/-! ## The pass -/

namespace Lift

variable (category : Value) (keepComments : Bool) (sink : Diagnostics) (tree : Value)

/-- A walk asks about the root first. -/
theorem walk_eq {σ : Type} (V : Visitor σ) (n : Nat) (memory : σ) : walk V n tree memory =
    match V.ask (placed tree) none ⟨memory, (tree.stamp (tree.topMark + 1)).2, []⟩ with
    | (.error fault, t) => .stopped (placed tree) fault t
    | (.ok (.splice _), t) => .stopped (placed tree) .rootSplice t
    | (.ok .keep, t) => .ofWalked (placed tree) false (Walk.children V n (placed tree) t)
    | (.ok (.node v), t) => .ofWalked (placed tree) true (Walk.children V n v t) := by
  unfold walk placed
  rfl

/-- A pass is stopped at the root, or it walks through the tree; that does not depend on the fuel. -/
theorem walk_cases :
    (∃ fault t, fault ≠ .exhausted ∧ ∀ n, walk (visitor category keepComments) n tree ⟨sink, [], []⟩
      = .stopped (placed tree) fault t) ∨
    ∃ t, (visitor category keepComments).ask (placed tree) none (outset sink tree) = (.ok .keep, t) ∧
      ∀ n, walk (visitor category keepComments) n tree ⟨sink, [], []⟩
        = .ofWalked (placed tree) false (Walk.children (visitor category keepComments) n (placed tree) t) := by
  have hfueled := ask_fueled category keepComments (placed tree) none (outset sink tree)
  have hwalk (n : Nat) := walk_eq tree (visitor category keepComments) n ⟨sink, [], []⟩
  rw [← outset] at hwalk
  rcases hask : (visitor category keepComments).ask (placed tree) none (outset sink tree) with ⟨fault | answer, t⟩
  · rw [hask] at hfueled
    exact .inl ⟨fault, t, fun h => hfueled (congrArg Except.error h), fun n => by rw [hwalk, hask]⟩
  · cases answer with
    | keep => exact .inr ⟨t, rfl, fun n => by rw [hwalk, hask]⟩
    | splice request => exact .inl ⟨.rootSplice, t, by decide, fun n => by rw [hwalk, hask]⟩
    | node n => exact (ask_ne_node _ _ _ _ _ _ _ hask).elim

variable {tree}

/-- The walk through a tree that was just placed is not stopped for want of fuel. -/
theorem children_fueled (hjson : tree.isJson = true) {t : Trail Memory}
    (hask : (visitor category keepComments).ask (placed tree) none (outset sink tree) = (.ok .keep, t)) :
    (Walk.children (visitor category keepComments) (fuel tree) (placed tree) t).fault ≠ some .exhausted := by
  obtain ⟨qs, hpass⟩ := (outset_walkable hjson hask).passes category keepComments (fuel tree)
  refine hpass.fueled ?_
  have hsize := toll_add_reserve_le tree
  show (placed tree).reserve ≤ fuel tree
  rw [placed, reserve_stamp, fuel]
  omega

/-- **The pass is not stopped for want of fuel.** -/
theorem run_fueled (hjson : tree.isJson = true) : (run category keepComments sink tree).fault ≠ some .exhausted := by
  show (walk (visitor category keepComments) (fuel tree) tree ⟨sink, [], []⟩).fault ≠ _
  rcases walk_cases category keepComments sink tree with ⟨fault, t, hne, hwalk⟩ | ⟨t, hask, hwalk⟩
  · rw [hwalk]
    exact fun h => hne (Option.some.inj h)
  · rw [hwalk]
    exact children_fueled category keepComments sink hjson hask

/-- With more fuel the pass does the same. -/
theorem walk_eq_of_le (hjson : tree.isJson = true) {n : Nat} (hle : fuel tree ≤ n) :
    walk (visitor category keepComments) n tree ⟨sink, [], []⟩
      = walk (visitor category keepComments) (fuel tree) tree ⟨sink, [], []⟩ := by
  rcases walk_cases category keepComments sink tree with ⟨fault, t, _, hwalk⟩ | ⟨t, hask, hwalk⟩
  · rw [hwalk, hwalk]
  · have hsame : Walk.children (visitor category keepComments) n (placed tree) t
        = Walk.children (visitor category keepComments) (fuel tree) (placed tree) t :=
      Walk.run_eq_of_le (.children _) hle (children_fueled category keepComments sink hjson hask)
    rw [hwalk, hwalk, hsame]

end Lift

end EsmLift
