import EsmLift.Proofs.Pieces

/-!
# `Proofs.Expansion` — what the pass makes of a tree, without walking

`Lift.lifted` says what a tree looks like after the pass. It rebuilds an object field by field. A list of a program
is expanded: a candidate in it becomes the statements it is split into, each of them lifted in turn. Nothing else
moves. There are no marks, no edits and no order of events in this definition.

The recursion goes down in depth: the statements that a candidate is split into are no deeper than the candidate.

## Contents

* `Statement.replaced`, `Statement.depth_replaced`;
* `Lift.lifted`, `Lift.liftedSlot`, `Lift.liftedItem`;
* `skeleton_lifted`: lifting makes and unmakes no candidate;
* `lifted_eq_self`: where nothing is pending, nothing changes.
-/

namespace EsmLift

open Value

theorem Value.depthFields_append (fs gs : Fields) :
    depthFields (fs ++ gs) = max (depthFields fs) (depthFields gs) := by
  induction fs with
  | nil => exact (Nat.zero_max _).symm
  | cons f rest ih =>
    obtain ⟨k, v⟩ := f
    rw [List.cons_append, depthFields, depthFields, ih, Nat.max_assoc]

namespace Statement

/-- What stands in the place of a statement of a program: its pieces if it is a candidate, itself if not. -/
def replaced (keepComments : Bool) (e : Value) : List Value :=
  match isCandidate e, split keepComments e with
  | .ok true, .ok r => r.nodes
  | _, _ => [e]

theorem replaced_of_split {keepComments : Bool} {e : Value} {r : Replacement} (hl : loads e = true)
    (hs : split keepComments e = .ok r) : replaced keepComments e = r.nodes := by
  rw [replaced, loads_iff.mp hl, hs]

theorem replaced_of_not_loads {keepComments : Bool} {e : Value} (h : loads e = false) :
    replaced keepComments e = [e] := by
  rw [replaced]
  split
  · rename_i hc _
    rw [loads_iff.mpr hc] at h
    cases h
  · rfl

theorem replaced_of_error {keepComments : Bool} {e : Value} {fault : Fault}
    (hs : split keepComments e = .error fault) : replaced keepComments e = [e] := by
  rw [replaced, hs]
  split
  · rename_i heq; cases heq
  · rfl

/-- A piece of a candidate is no deeper than the candidate. -/
theorem depth_split {keepComments : Bool} {e n : Value} {r : Replacement} (hl : loads e = true)
    (hs : split keepComments e = .ok r) (hn : n ∈ r.nodes) : n.depth ≤ e.depth := by
  obtain ⟨_, kind, declarations, ds, ps, hkind, hdecl, hds, hps, hnodes, _⟩ := split_ok hs
  rw [hnodes] at hn
  obtain ⟨p, hp, rfl⟩ := List.mem_map.mp hn
  have hkindDepth := (within_get? (isA_of_loads hl) (by decide) (by decide) hkind).depth
  have hdeclDepth := (within_get? (isA_of_loads hl) (by decide) (by decide) hdecl).depth
  have hdsDepth : declarations.depth = 1 + depthItems ds := by
    rcases declarations_of_loads hl hdecl with ⟨m, xs, rfl⟩ | ⟨xs, rfl⟩ <;>
      · obtain rfl : xs = ds := Except.ok.inj hds
        rw [depth]
  have hown := (hps p hp).depth
  have hhead : depthFields (p.head kind) ≤ kind.depth := by
    unfold Piece.head
    cases p.plain with
    | false => exact Nat.zero_le _
    | true =>
      have heq : depthFields [("type", NodeType.variableDeclaration.value), ("kind", kind)]
          = max 0 (max kind.depth 0) := rfl
      simp only [if_true]
      omega
  rw [Piece.value, depth, depthFields_append]
  omega

/-- What stands in the place of a statement is no deeper than the statement. -/
theorem depth_replaced {keepComments : Bool} {e n : Value} (h : n ∈ replaced keepComments e) :
    n.depth ≤ e.depth := by
  have hself (heq : replaced keepComments e = [e]) : n.depth ≤ e.depth := by
    rw [heq] at h
    exact Nat.le_of_eq (congrArg depth (List.mem_singleton.mp h))
  cases hl : loads e with
  | false => exact hself (replaced_of_not_loads hl)
  | true =>
    cases hs : split keepComments e with
    | error fault => exact hself (replaced_of_error hs)
    | ok r => exact depth_split hl hs (replaced_of_split hl hs ▸ h)

end Statement

namespace Lift

mutual
/-- An object after the pass. -/
def lifted (keepComments : Bool) : Value → Value
  | .object m fs =>
    .object m (fs.map fun f =>
      (f.1, if Syntax.metadataKeys.contains f.1 then f.2
        else liftedSlot keepComments ((Value.object m fs).isA .program) f.2))
  | v => v
termination_by v => (v.depth, 0)
decreasing_by
  rename_i hf hk
  have hle := depth_le_fields hf (by simpa using hk)
  rw [depth]
  exact Prod.Lex.left _ _ (by omega)

/-- The value of a field after the pass; `program` says whether the field is one of a program. -/
def liftedSlot (keepComments program : Bool) : Value → Value
  | .list m xs => .list m (xs.flatMap fun x => liftedItem keepComments program x)
  | .object m fs => if (Value.object m fs).isNode then lifted keepComments (.object m fs) else .object m fs
  | v => v
termination_by v => (v.depth, 1)
decreasing_by
  · rename_i hx
    have hle := depth_le_items hx
    rw [depth]
    exact Prod.Lex.left _ _ (by omega)
  · exact Prod.Lex.right _ Nat.one_pos

/-- What stands in the place of a list item after the pass. -/
def liftedItem (keepComments program : Bool) (x : Value) : List Value :=
  if x.isNode then
    if program then (Statement.replaced keepComments x).attach.map fun n => lifted keepComments n.1
    else [lifted keepComments x]
  else [x]
termination_by (x.depth, 2)
decreasing_by
  · rcases Nat.lt_or_eq_of_le (Statement.depth_replaced n.2) with hlt | heq
    · exact Prod.Lex.left _ _ hlt
    · rw [heq]
      exact Prod.Lex.right _ (by decide)
  · exact Prod.Lex.right _ (by decide)
end

/-! ## Unfolding -/

theorem lifted_object (keepComments : Bool) (m : Nat) (fs : Fields) :
    lifted keepComments (.object m fs) = .object m (fs.map fun f =>
      (f.1, if Syntax.metadataKeys.contains f.1 then f.2
        else liftedSlot keepComments ((Value.object m fs).isA .program) f.2)) := by
  rw [lifted]

theorem liftedSlot_list (keepComments program : Bool) (m : Nat) (xs : List Value) :
    liftedSlot keepComments program (.list m xs) = .list m (xs.flatMap (liftedItem keepComments program)) := by
  rw [liftedSlot]

theorem liftedSlot_node (keepComments program : Bool) {v : Value} (h : v.isNode = true) :
    liftedSlot keepComments program v = lifted keepComments v := by
  cases v with
  | object m fs => rw [liftedSlot, if_pos h]
  | _ => cases h

/-- What is neither a list nor a node stays. -/
theorem liftedSlot_other (keepComments program : Bool) {v : Value} (h : v.isNode = false)
    (hl : ∀ m xs, v ≠ .list m xs) : liftedSlot keepComments program v = v := by
  cases v with
  | object m fs => rw [liftedSlot, if_neg (by rw [h]; exact Bool.false_ne_true)]
  | list m xs => exact absurd rfl (hl m xs)
  | _ => rw [liftedSlot] <;> simp

theorem lifted_of_not_object (keepComments : Bool) {v : Value} (h : v.isObject = false) : lifted keepComments v = v := by
  cases v with
  | object m fs => cases h
  | _ => rw [lifted]; simp

theorem liftedItem_replaced (keepComments : Bool) {x : Value} (h : x.isNode = true) :
    liftedItem keepComments true x = (Statement.replaced keepComments x).map (lifted keepComments) := by
  rw [liftedItem, if_pos h, if_pos rfl, List.attach_map_val]

theorem liftedItem_other (keepComments : Bool) {x : Value} (program : Bool) (h : x.isNode = false) :
    liftedItem keepComments program x = [x] := by
  rw [liftedItem, if_neg (by rw [h]; exact Bool.false_ne_true)]

/-- An item that is no candidate of a program stays one item. -/
theorem liftedItem_keep (keepComments : Bool) {x : Value} {program : Bool} (hx : x.isNode = true)
    (h : (program && Statement.loads x) = false) : liftedItem keepComments program x = [lifted keepComments x] := by
  cases program with
  | false => rw [liftedItem, if_pos hx, if_neg Bool.false_ne_true]
  | true => rw [liftedItem_replaced keepComments hx, Statement.replaced_of_not_loads h, List.map_singleton]

/-! ## Lifting keeps what recognition looks at -/

theorem isText_liftedSlot (keepComments program : Bool) (v : Value) (s : String) :
    (liftedSlot keepComments program v).isText s = v.isText s := by
  cases v with
  | list m xs => rw [liftedSlot_list]; rfl
  | object m fs =>
    rw [liftedSlot]
    split
    · rw [lifted_object]; rfl
    · rfl
  | _ => rw [liftedSlot_other _ _ rfl (by simp)]

theorem lookup_lifted (keepComments program : Bool) (fs : Fields) (key : String) :
    (fs.map fun f => (f.1, if Syntax.metadataKeys.contains f.1 then f.2
        else liftedSlot keepComments program f.2)).lookup key
      = (fs.lookup key).map fun v =>
        if Syntax.metadataKeys.contains key then v else liftedSlot keepComments program v :=
  Fields.lookup_map (fun k v => if Syntax.metadataKeys.contains k then v else liftedSlot keepComments program v) fs key

theorem get?_lifted (keepComments : Bool) (v : Value) {key : String} (hk : Syntax.metadataKeys.contains key = true) :
    (lifted keepComments v).get? key = v.get? key := by
  cases v with
  | object m fs =>
    rw [lifted_object]
    show List.lookup _ _ = List.lookup _ _
    rw [lookup_lifted]
    simp only [hk, if_true]
    cases fs.lookup key <;> rfl
  | _ => rw [lifted_of_not_object keepComments rfl]

theorem isA_lifted (keepComments : Bool) (v : Value) (t : NodeType) : (lifted keepComments v).isA t = v.isA t := by
  cases v with
  | object m fs =>
    have htype : (lifted keepComments (.object m fs)).get? "type"
        = (fs.lookup "type").map (liftedSlot keepComments ((Value.object m fs).isA .program)) := by
      rw [lifted_object]
      exact lookup_lifted keepComments _ fs "type"
    rw [Value.isA_eq, Value.isA_eq, htype]
    show _ = (fs.lookup "type").any _
    cases fs.lookup "type" with
    | none => rfl
    | some w => exact isText_liftedSlot keepComments _ w t.tag
  | _ => rw [lifted_of_not_object keepComments rfl]

/-- Outside programs the items of a list stay apart. -/
theorem flatMap_liftedItem_false (keepComments : Bool) (xs : List Value) :
    xs.flatMap (liftedItem keepComments false)
      = xs.map fun x => if x.isNode then lifted keepComments x else x := by
  induction xs with
  | nil => rfl
  | cons x rest ih =>
    rw [List.flatMap_cons, List.map_cons, ih]
    cases hx : x.isNode with
    | true => rw [liftedItem_keep keepComments hx rfl]; rfl
    | false => rw [liftedItem_other keepComments false hx]; rfl

theorem skeletonFields_lifted (keepComments : Bool) {fs : Fields}
    (h : ∀ f ∈ fs, (liftedSlot keepComments false f.2).skeleton = f.2.skeleton) :
    skeletonFields (fs.map fun f => (f.1, if Syntax.metadataKeys.contains f.1 then f.2
      else liftedSlot keepComments false f.2)) = skeletonFields fs := by
  induction fs with
  | nil => rfl
  | cons f rest ih =>
    obtain ⟨k, v⟩ := f
    obtain ⟨hv, hrest⟩ := List.forall_mem_cons.mp h
    rw [List.map_cons, skeletonFields, skeletonFields, ih hrest]
    split
    · rfl
    · rw [hv]

/-- **Lifting keeps skeletons**, except in the lists of programs. -/
theorem skeleton_lifted (keepComments : Bool) (v : Value) :
    (lifted keepComments v).skeleton = v.skeleton ∧ (liftedSlot keepComments false v).skeleton = v.skeleton := by
  induction v using Value.induction with
  | leaf v hv =>
    have hobj : v.isObject = false := by cases v <;> first | rfl | cases hv
    have hnode : v.isNode = false := by cases v <;> first | rfl | cases hv
    rw [lifted_of_not_object keepComments hobj,
      liftedSlot_other keepComments false hnode (by rintro m xs rfl; cases hv)]
    exact ⟨rfl, rfl⟩
  | list m xs ih =>
    refine ⟨by rw [lifted_of_not_object keepComments rfl], ?_⟩
    rw [liftedSlot_list, flatMap_liftedItem_false, skeleton, skeleton, skeletonItems_eq_map, skeletonItems_eq_map,
      List.map_map]
    refine congrArg _ (List.map_congr_left fun x hx => ?_)
    show Value.skeleton (if x.isNode then _ else _) = _
    split
    · exact (ih x hx).1
    · rfl
  | tuple xs _ =>
    rw [lifted_of_not_object keepComments rfl, liftedSlot_other keepComments false rfl (by simp)]
    exact ⟨rfl, rfl⟩
  | object m fs ih =>
    have hself : (lifted keepComments (.object m fs)).skeleton = (Value.object m fs).skeleton := by
      have hA := isA_lifted keepComments (.object m fs) .program
      rw [lifted_object] at hA ⊢
      by_cases hp : (Value.object m fs).isA .program = true
      · -- of a program only the type counts
        rw [skeleton, skeleton, hA, if_pos hp, if_pos hp]
      · rw [skeleton, skeleton, hA, if_neg hp, if_neg hp, Bool.eq_false_iff.mpr hp,
          skeletonFields_lifted keepComments fun f hf => (ih f hf).2]
    refine ⟨hself, ?_⟩
    rw [liftedSlot]
    split
    · exact hself
    · rfl

/-- Lifting makes and unmakes no candidate. -/
theorem isCandidate_lifted (keepComments : Bool) (v : Value) :
    Statement.isCandidate (lifted keepComments v) = Statement.isCandidate v :=
  Statement.isCandidate_of_skeleton (skeleton_lifted keepComments v).1

theorem isNode_lifted (keepComments : Bool) (v : Value) : (lifted keepComments v).isNode = v.isNode := by
  cases v with
  | object m fs =>
    rw [lifted_object]
    show (List.lookup _ _).isSome = (List.lookup _ _).isSome
    rw [lookup_lifted, Option.isSome_map]
  | _ => rw [lifted_of_not_object keepComments rfl]

/-! ## Where nothing is pending -/

/-- **Where nothing is pending, nothing changes.** -/
theorem lifted_eq_self (keepComments : Bool) (v : Value) :
    (v.pending = [] → lifted keepComments v = v) ∧
      ∀ program, pendingSlot program v = [] → liftedSlot keepComments program v = v := by
  induction v using Value.induction with
  | leaf v hv =>
    have hobj : v.isObject = false := by cases v <;> first | rfl | cases hv
    have hnode : v.isNode = false := by cases v <;> first | rfl | cases hv
    refine ⟨fun _ => lifted_of_not_object keepComments hobj, fun program _ => ?_⟩
    exact liftedSlot_other keepComments program hnode (by rintro m xs rfl; cases hv)
  | list m xs ih =>
    refine ⟨fun _ => lifted_of_not_object keepComments rfl, fun program h => ?_⟩
    rw [pendingSlot] at h
    obtain ⟨hself, hitems⟩ := List.append_eq_nil_iff.mp h
    have hno : (program && xs.any Statement.loads) = false := by
      cases hp : program && xs.any Statement.loads with
      | false => rfl
      | true => rw [if_pos hp] at hself; cases hself
    rw [liftedSlot_list]
    refine congrArg _ ?_
    clear h hself
    induction xs with
    | nil => rfl
    | cons x rest ihxs =>
      rw [pendingItems] at hitems
      obtain ⟨hx, hrest⟩ := List.append_eq_nil_iff.mp hitems
      have hnox : (program && Statement.loads x) = false ∧ (program && rest.any Statement.loads) = false := by
        rw [List.any_cons] at hno
        cases program <;> simp_all
      rw [List.flatMap_cons, ihxs (fun y hy => ih y (List.mem_cons_of_mem _ hy)) hrest hnox.2]
      cases hn : x.isNode with
      | true =>
        rw [if_pos hn] at hx
        rw [liftedItem_keep keepComments hn hnox.1, (ih x List.mem_cons_self).1 (List.append_eq_nil_iff.mp hx).2]
        rfl
      | false => rw [liftedItem_other keepComments program hn]; rfl
  | tuple xs _ =>
    exact ⟨fun _ => lifted_of_not_object keepComments rfl,
      fun program _ => liftedSlot_other keepComments program rfl (by simp)⟩
  | object m fs ih =>
    have hself (h : (Value.object m fs).pending = []) : lifted keepComments (.object m fs) = .object m fs := by
      rw [pending] at h
      rw [lifted_object]
      refine congrArg _ (Fields.map_self (g := fun k v => if Syntax.metadataKeys.contains k then v
        else liftedSlot keepComments ((Value.object m fs).isA .program) v) fun f hf => ?_)
      split
      · rfl
      · rename_i hk
        refine (ih f hf).2 _ (List.eq_nil_iff_forall_not_mem.mpr fun k hkf => ?_)
        have hmem := mem_pendingFields hf (Bool.eq_false_iff.mpr hk) hkf
        rw [h] at hmem
        exact absurd hmem List.not_mem_nil
    refine ⟨hself, fun program h => ?_⟩
    cases hn : (Value.object m fs).isNode with
    | true =>
      rw [pendingSlot_node program hn] at h
      rw [liftedSlot_node keepComments program hn]
      exact hself h
    | false => exact liftedSlot_other keepComments program hn (by simp)

end Lift
end EsmLift
