import EsmLift.Proofs.Labels
import EsmLift.Proofs.Progress
import EsmLift.Standard
import Mathlib.Data.List.Nodup

/-!
# `Proofs.Ownership` — no part of a tree is duplicated

Each part of a statement goes to one place when the statement is split, but for its kind, which all plain pieces
share. So a label can only occur more often than before if it is in such a kind. `copies` says how often a label
can occur when the pass is over, by the tree that is given; no step raises that number.

## Contents

* `Statement.shares`, `Lift.copies`: how often a label can occur;
* `Lift.tally`: that number as a weight;
* `Lift.Steps.copies_le`: no step raises it;
* `Lift.shared`, `Lift.copies_eq`: the kinds that pieces share, and the labels outside them;
* `Lift.run_owns`.
-/

namespace EsmLift

open Value

/-- How many pieces have the kind of a statement, if the statement is split. -/
def Statement.shares (program : Bool) (e : Value) : Nat := if program && loads e then max 1 (plains e) else 1

theorem Statement.one_le_shares (program : Bool) (e : Value) : 1 ≤ shares program e := by
  unfold shares
  split <;> omega

/-- Values with one skeleton would be split alike. -/
theorem Statement.shares_of_skeleton {v w : Value} (program : Bool) (h : w.skeleton = v.skeleton) :
    shares program w = shares program v := by
  have hload : loads w = loads v := by rw [loads, loads, isCandidate_of_skeleton h]
  rw [shares, shares, hload]
  cases hv : loads v with
  | false => rw [Bool.and_false]; rfl
  | true =>
    have hdecl {e : Value} (he : loads e = true) : e.skeleton.at "declarations" = (e.at "declarations").skeleton :=
      Require.at_faithful faithful_skeleton (isA_unique (isA_of_loads he) (by decide)) (by decide)
    have hplains : plains w = plains v := by
      rw [← plains_faithful faithful_skeleton (hdecl (hload.trans hv)), h, plains_faithful faithful_skeleton (hdecl hv)]
    rw [hplains]

namespace Lift

section

variable (key : String) (l : Scalar)

/-- Whether an object itself has the label. -/
def own (v : Value) : Nat := if v.label? key = some l then 1 else 0

mutual
/-- How often a label can occur in an object, if there are `times` copies of its kind. -/
def copies (times : Nat) : Value → Nat
  | .object m fs => own key l (.object m fs) + copiesFields ((Value.object m fs).isA .program) times fs
  | v => (v.labels key).count l

/-- How often a label can occur in the fields of an object, which is a program or not. -/
def copiesFields (program : Bool) (times : Nat) : List (String × Value) → Nat
  | [] => 0
  | (k, v) :: rest =>
    (if Syntax.metadataKeys.contains k then (v.labels key).count l
      else (if k = "kind" then times else 1) * copiesSlot program v) +
      copiesFields program (if k = "kind" then 1 else times) rest

/-- How often a label can occur in the value of one field. -/
def copiesSlot (program : Bool) : Value → Nat
  | .list _ xs => copiesItems program xs
  | .object m fs =>
    if (Value.object m fs).isNode then
      own key l (.object m fs) + copiesFields ((Value.object m fs).isA .program) 1 fs
    else ((Value.object m fs).labels key).count l
  | v => (v.labels key).count l

/-- How often a label can occur in the items of a list. -/
def copiesItems (program : Bool) : List Value → Nat
  | [] => 0
  | v :: rest =>
    (if v.isNode then copies (Statement.shares program v) v else (v.labels key).count l) + copiesItems program rest
end

end

variable {key : String} {l : Scalar}

/-! ## The number as a weight -/

theorem copiesSlot_node {v : Value} (program : Bool) (h : v.isNode = true) :
    copiesSlot key l program v = copies key l 1 v := by
  cases v with
  | object m fs => rw [copiesSlot, if_pos h, copies]
  | _ => cases h

theorem copiesItems_append (program : Bool) (xs ys : List Value) :
    copiesItems key l program (xs ++ ys) = copiesItems key l program xs + copiesItems key l program ys := by
  induction xs with
  | nil => exact (Nat.zero_add _).symm
  | cons x rest ih => rw [List.cons_append, copiesItems, copiesItems, ih, Nat.add_assoc]

theorem copiesItems_eq_sum (program : Bool) (xs : List Value) : copiesItems key l program xs
    = (xs.map fun v => if v.isNode then copies key l (Statement.shares program v) v
        else (v.labels key).count l).sum := by
  induction xs with
  | nil => rfl
  | cons v rest ih => rw [copiesItems, ih, List.map_cons, List.sum_cons]

theorem copiesFields_eq_sum (program : Bool) (fs : Fields) : copiesFields key l program 1 fs
    = (fs.map fun f => if Syntax.metadataKeys.contains f.1 then (f.2.labels key).count l
        else copiesSlot key l program f.2).sum := by
  induction fs with
  | nil => rfl
  | cons f rest ih =>
    obtain ⟨k, v⟩ := f
    rw [copiesFields, ite_self, Nat.one_mul, ih, List.map_cons, List.sum_cons]

/-- Copies of the kind are copies of the first field of that name. -/
theorem copiesFields_times (program : Bool) (times : Nat) (fs : Fields) :
    copiesFields key l program (times + 1) fs
      = copiesFields key l program 1 fs + times * copiesSlot key l program ((fs.lookup "kind").getD .null) := by
  induction fs with
  | nil => rfl
  | cons f rest ih =>
    obtain ⟨k, v⟩ := f
    rw [copiesFields, copiesFields, List.lookup_cons]
    by_cases hk : k = "kind"
    · subst hk
      have hplain : Syntax.metadataKeys.contains "kind" = false := by decide
      simp only [hplain, if_true, beq_self_eq_true, Option.getD_some, Bool.false_eq_true, if_false, Nat.add_mul]
      omega
    · have hne : ("kind" == k) = false := by simpa using fun h => hk h.symm
      simp only [if_neg hk, hne, ih]
      omega

theorem copies_times {v : Value} (times : Nat) (h : v.isA .program = false) (hobj : v.isObject = true) :
    copies key l (times + 1) v = copies key l 1 v + times * copiesSlot key l false (v.at "kind") := by
  cases v with
  | object m fs =>
    rw [copies, copies, h, copiesFields_times, at_object]
    omega
  | _ => cases hobj

/-- The number of copies as a weight. Built nodes have no label themselves. -/
def tally (l : Scalar) (hkey : key ∉ Syntax.writtenKeys) : Gauge where
  slot := copiesSlot key l false
  item v := if v.isNode then copies key l 1 v else (v.labels key).count l
  note v := (v.labels key).count l
  base := own key l
  slot_leaf v h := by cases v <;> first | rfl | cases h
  slot_list m xs := by rw [copiesSlot, copiesItems_eq_sum]; rfl
  slot_node v h := by rw [copiesSlot_node false h, if_pos h]
  item_node m fs hn hA := by rw [if_pos hn, copies, hA, copiesFields_eq_sum]
  note_leaf v h := by rw [labels_leaf key h]; rfl
  note_list m xs := count_labels_list key l m xs
  note_items v xs h := count_labels_items key l h
  base_specifier localName imported s v h _ := by
    rw [own, Syntax.label?_of_isBuilt hkey h.isBuilt]
    exact Nat.zero_le _

theorem copies_eq_below (hkey : key ∉ Syntax.writtenKeys) {v : Value} {t : NodeType} (hv : v.isA t = true)
    (ht : t ≠ .program) : copies key l 1 v = own key l v + (tally l hkey).below v := by
  have hitem : (tally l hkey).item v = copies key l 1 v := if_pos (isNode_of_isA hv)
  rw [← hitem, (tally l hkey).item_eq hv ht]
  rfl

/-! ## Steps -/

/-- Fewer copies in one field are no more copies in all. -/
theorem copiesFields_le {program : Bool} {v w : Value} (times : Nat) (fs gs : Fields) {k : String}
    (hk : Syntax.metadataKeys.contains k = false) (h : copiesSlot key l program w ≤ copiesSlot key l program v) :
    copiesFields key l program times (fs ++ (k, w) :: gs) ≤ copiesFields key l program times (fs ++ (k, v) :: gs) := by
  induction fs generalizing times with
  | nil =>
    rw [List.nil_append, List.nil_append, copiesFields, copiesFields, hk, if_neg Bool.false_ne_true,
      if_neg Bool.false_ne_true]
    exact Nat.add_le_add_right (Nat.mul_le_mul_left _ h) _
  | cons f rest ih =>
    obtain ⟨j, u⟩ := f
    rw [List.cons_append, List.cons_append, copiesFields, copiesFields]
    exact Nat.add_le_add_left (ih _) _

/-- The pieces of a candidate have the labels of the candidate, and those of the kind as often as they share it. -/
theorem copiesItems_split {keepComments : Bool} (l : Scalar) (hkey : key ∉ Syntax.writtenKeys) {e : Value}
    {r : Replacement} (hload : Statement.loads e = true) (htuple : ∀ c ∈ e.compounds, c.isTuple = false)
    (h : Statement.split keepComments e = .ok r) :
    copiesItems key l true r.nodes ≤ copies key l (Statement.shares true e) e := by
  have hdeclaration := Statement.isA_of_loads hload
  have hsplit := (tally l hkey).split_le h fun ds hds => by
    obtain ⟨_, declarations, _, _, hdecl, _, _⟩ := Statement.split_becomes h
    obtain ⟨m, ds', rfl⟩ := Statement.declarations_list hload htuple hdecl
    rw [at_eq hdecl] at hds ⊢
    cases hds
    exact ⟨rfl, Nat.le_of_eq ((tally l hkey).slot_list m ds).symm⟩
  -- a piece is a built node, and no candidate
  have hpiece (n : Value) (hn : n ∈ r.nodes) :
      (if n.isNode then copies key l (Statement.shares true n) n else (n.labels key).count l)
        = (tally l hkey).below n := by
    have hbuilt := (Statement.compounds_split h hn).built
    obtain ⟨t, ht, hA⟩ := Syntax.isA_of_isBuilt hbuilt
    have hshares : Statement.shares true n = 1 := by
      rw [Statement.shares, Statement.loads_split h hn]
      rfl
    rw [if_pos (isNode_of_isA hA), hshares, copies_eq_below hkey hA ht, own, Syntax.label?_of_isBuilt hkey hbuilt]
    exact Nat.zero_add _
  have hpieces : copiesItems key l true r.nodes = (r.nodes.map (tally l hkey).below).sum := by
    rw [copiesItems_eq_sum, List.map_congr_left hpiece]
  have hshares : Statement.shares true e = (Statement.plains e - 1) + 1 := by
    rw [Statement.shares, hload]
    show max 1 _ = _
    omega
  have hobj := isObject_of_isNode (isNode_of_isA hdeclaration)
  have hslot : (tally l hkey).slot (e.at "kind") = copiesSlot key l false (e.at "kind") := rfl
  rw [hslot] at hsplit
  rw [hpieces, hshares, copies_times _ (isA_unique hdeclaration (by decide)) hobj,
    copies_eq_below hkey hdeclaration (by decide)]
  omega

/-- A step makes no more copies, whatever stands around it. -/
theorem Step.copies_le {keepComments : Bool} {place : Place} {v w : Value} (hkey : key ∉ Syntax.writtenKeys)
    (h : Step keepComments place v w) (htuple : ∀ c ∈ v.compounds, c.isTuple = false) :
    (∀ program, place = .under program → copiesSlot key l program w ≤ copiesSlot key l program v) ∧
      (v.isObject = true → ∀ times, copies key l times w ≤ copies key l times v) := by
  induction h with
  | @splice m xs ys e r hload hsplit =>
    refine ⟨fun program hplace => ?_, fun hobj => by cases hobj⟩
    cases hplace
    have hle := copiesItems_split l hkey hload
      (fun c hc => htuple c (mem_compounds_list.mpr (.inr ⟨e, List.mem_append_right _ List.mem_cons_self, hc⟩))) hsplit
    rw [copiesSlot, copiesSlot, copiesItems_append, copiesItems_append, copiesItems_append, copiesItems,
      if_pos (Statement.isNode_of_loads hload)]
    omega
  | @item program m xs ys x y hx hstep ih =>
    refine ⟨fun program' hplace => ?_, fun hobj => by cases hobj⟩
    cases hplace
    have hobj := isObject_of_isNode hx
    have hle := (ih fun c hc =>
      htuple c (mem_compounds_list.mpr (.inr ⟨x, List.mem_append_right _ List.mem_cons_self, hc⟩))).2 hobj
      (Statement.shares program x)
    rw [copiesSlot, copiesSlot, copiesItems_append, copiesItems_append, copiesItems, copiesItems, if_pos hx,
      if_pos (hstep.isNode.trans hx), Statement.shares_of_skeleton program (hstep.skeleton (.inr hobj))]
    omega
  | @field place m fs gs k v w hplace hk hstep ih =>
    have hA : (Value.object m (fs ++ (k, w) :: gs)).isA .program = (Value.object m (fs ++ (k, v) :: gs)).isA .program :=
      Walk.isA_update hstep.isText .program
    have hslot := (ih fun c hc =>
      htuple c (mem_compounds_object.mpr (.inr ⟨(k, v), List.mem_append_right _ List.mem_cons_self, hc⟩))).1 _ rfl
    have hall (times : Nat) : copies key l times (.object m (fs ++ (k, w) :: gs))
        ≤ copies key l times (.object m (fs ++ (k, v) :: gs)) := by
      rw [copies, copies, own, own, hstep.label?_field, hA]
      exact Nat.add_le_add_left (copiesFields_le times fs gs hk hslot) _
    refine ⟨fun program hunder => ?_, fun _ => hall⟩
    have hnode : (Value.object m (fs ++ (k, v) :: gs)).isNode = true := by
      rcases hplace with hroot | hnode
      · rw [hroot] at hunder
        cases hunder
      · exact hnode
    have hnode' := (Step.field (.inr hnode) hk hstep : Step _ place _ _).isNode.trans hnode
    rw [copiesSlot_node program hnode, copiesSlot_node program hnode']
    exact hall 1

/-- **No step makes more copies.** -/
theorem Steps.copies_le {keepComments : Bool} {v w : Value} (hkey : key ∉ Syntax.writtenKeys)
    (h : Steps keepComments .root v w) (htuple : ∀ c ∈ v.compounds, c.isTuple = false) :
    copies key l 1 w ≤ copies key l 1 v := by
  induction h with
  | refl => exact Nat.le_refl _
  | tail h hstep ih =>
    refine Nat.le_trans ((hstep.copies_le hkey (Steps.isTuple h htuple)).2 ?_ 1) ih
    cases hstep
    rfl

/-! ## Labels that are there, and labels that are shared -/

theorem count_labels_le_items (program : Bool) {xs : List Value}
    (h : ∀ x ∈ xs, ∀ times, 1 ≤ times → (x.labels key).count l ≤ copies key l times x) :
    (xs.map fun x => (x.labels key).count l).sum ≤ copiesItems key l program xs := by
  induction xs with
  | nil => exact Nat.le_refl _
  | cons x rest ih =>
    obtain ⟨hx, hrest⟩ := List.forall_mem_cons.mp h
    have hlater := ih hrest
    rw [copiesItems, List.map_cons, List.sum_cons]
    split
    · have hle := hx (Statement.shares program x) (Statement.one_le_shares program x)
      omega
    · omega

theorem count_labels_le_fields (program : Bool) {times : Nat} (htimes : 1 ≤ times) {fs : Fields}
    (h : ∀ f ∈ fs, ∀ program, (f.2.labels key).count l ≤ copiesSlot key l program f.2) :
    (fs.map fun f => (f.2.labels key).count l).sum ≤ copiesFields key l program times fs := by
  induction fs generalizing times with
  | nil => exact Nat.le_refl _
  | cons f rest ih =>
    obtain ⟨k, v⟩ := f
    obtain ⟨hv, hrest⟩ := List.forall_mem_cons.mp h
    have hone : 1 ≤ if k = "kind" then 1 else times := by split <;> omega
    have hlater := ih hone hrest
    have hslot : (v.labels key).count l ≤ copiesSlot key l program v := hv program
    rw [copiesFields, List.map_cons, List.sum_cons]
    dsimp only
    split
    · omega
    · have hmany := Nat.le_mul_of_pos_left (copiesSlot key l program v)
        (show 0 < if k = "kind" then times else 1 by split <;> omega)
      omega

/-- A label that is there is counted. -/
theorem count_labels_le (v : Value) : (∀ program, (v.labels key).count l ≤ copiesSlot key l program v) ∧
    ∀ times, 1 ≤ times → (v.labels key).count l ≤ copies key l times v := by
  induction v using Value.induction with
  | leaf v h =>
    rw [labels_leaf key h]
    exact ⟨fun _ => Nat.zero_le _, fun _ _ => Nat.zero_le _⟩
  | list m xs ih =>
    refine ⟨fun program => ?_, fun _ _ => Nat.le_refl _⟩
    rw [copiesSlot, count_labels_list]
    exact count_labels_le_items program fun x hx => (ih x hx).2
  | tuple xs _ => exact ⟨fun _ => Nat.le_refl _, fun _ _ => Nat.le_refl _⟩
  | object m fs ih =>
    have hfields := fun f hf => (ih f hf).1
    refine ⟨fun program => ?_, fun times htimes => ?_⟩
    · rw [copiesSlot]
      split
      · rw [count_labels_object]
        exact Nat.add_le_add_left (count_labels_le_fields _ (Nat.le_refl 1) hfields) _
      · exact Nat.le_refl _
    · rw [copies, count_labels_object]
      exact Nat.add_le_add_left (count_labels_le_fields _ htimes hfields) _

mutual
/-- The kinds in an object that several pieces come to share, if there are `times` copies of its own one. -/
def shared (times : Nat) : Value → List Value
  | .object m fs => sharedFields ((Value.object m fs).isA .program) times fs
  | _ => []

/-- The shared kinds in the fields of an object, which is a program or not. -/
def sharedFields (program : Bool) (times : Nat) : List (String × Value) → List Value
  | [] => []
  | (k, v) :: rest =>
    (if Syntax.metadataKeys.contains k then []
      else (if k = "kind" ∧ 1 < times then [v] else []) ++ sharedSlot program v) ++
      sharedFields program (if k = "kind" then 1 else times) rest

/-- The shared kinds in the value of one field. -/
def sharedSlot (program : Bool) : Value → List Value
  | .list _ xs => sharedItems program xs
  | .object m fs =>
    if (Value.object m fs).isNode then sharedFields ((Value.object m fs).isA .program) 1 fs else []
  | _ => []

/-- The shared kinds in the items of a list. -/
def sharedItems (program : Bool) : List Value → List Value
  | [] => []
  | v :: rest => (if v.isNode then shared (Statement.shares program v) v else []) ++ sharedItems program rest
end

theorem copiesItems_eq (program : Bool) {xs : List Value}
    (h : ∀ x ∈ xs, ∀ times, 1 ≤ times → (∀ kind ∈ shared times x, l ∉ kind.labels key) →
      copies key l times x = (x.labels key).count l)
    (hshared : ∀ kind ∈ sharedItems program xs, l ∉ kind.labels key) :
    copiesItems key l program xs = (xs.map fun x => (x.labels key).count l).sum := by
  induction xs with
  | nil => rfl
  | cons x rest ih =>
    obtain ⟨hx, hrest⟩ := List.forall_mem_cons.mp h
    rw [sharedItems] at hshared
    obtain ⟨hself, hlater⟩ := List.forall_mem_append.mp hshared
    rw [copiesItems, List.map_cons, List.sum_cons, ih hrest hlater]
    split
    · rename_i hn
      rw [if_pos hn] at hself
      rw [hx _ (Statement.one_le_shares program x) hself]
    · rfl

theorem copiesFields_eq (program : Bool) {times : Nat} (htimes : 1 ≤ times) {fs : Fields}
    (h : ∀ f ∈ fs, ∀ program, (∀ kind ∈ sharedSlot program f.2, l ∉ kind.labels key) →
      copiesSlot key l program f.2 = (f.2.labels key).count l)
    (hshared : ∀ kind ∈ sharedFields program times fs, l ∉ kind.labels key) :
    copiesFields key l program times fs = (fs.map fun f => (f.2.labels key).count l).sum := by
  induction fs generalizing times with
  | nil => rfl
  | cons f rest ih =>
    obtain ⟨k, v⟩ := f
    obtain ⟨hv, hrest⟩ := List.forall_mem_cons.mp h
    rw [sharedFields] at hshared
    obtain ⟨hself, hlater⟩ := List.forall_mem_append.mp hshared
    have hone : 1 ≤ if k = "kind" then 1 else times := by split <;> omega
    rw [copiesFields, List.map_cons, List.sum_cons, ih hone hrest hlater]
    split
    · rfl
    · rename_i hk
      rw [if_neg hk] at hself
      obtain ⟨hkind, hbelow⟩ := List.forall_mem_append.mp hself
      rw [hv program hbelow]
      -- a kind that is shared does not have the label, and any other field is there once
      by_cases hmany : k = "kind" ∧ 1 < times
      · rw [if_pos hmany] at hkind
        rw [List.count_eq_zero.mpr (hkind v List.mem_cons_self), Nat.mul_zero]
      · have honce : (if k = "kind" then times else 1) = 1 := by
          split
          · rename_i hk
            exact Nat.le_antisymm (Nat.not_lt.mp fun hlt => hmany ⟨hk, hlt⟩) htimes
          · rfl
        rw [honce, Nat.one_mul]

/-- A label that is in no shared kind is counted once for each time that it is there. -/
theorem copies_eq (v : Value) :
    (∀ program, (∀ kind ∈ sharedSlot program v, l ∉ kind.labels key) →
      copiesSlot key l program v = (v.labels key).count l) ∧
    ∀ times, 1 ≤ times → (∀ kind ∈ shared times v, l ∉ kind.labels key) →
      copies key l times v = (v.labels key).count l := by
  induction v using Value.induction with
  | leaf v h =>
    refine ⟨fun program _ => ?_, fun times _ _ => ?_⟩
    · cases v <;> first | rfl | cases h
    · cases v <;> first | rfl | cases h
  | list m xs ih =>
    refine ⟨fun program hshared => ?_, fun _ _ _ => rfl⟩
    rw [sharedSlot] at hshared
    rw [copiesSlot, count_labels_list]
    exact copiesItems_eq program (fun x hx => (ih x hx).2) hshared
  | tuple xs _ => exact ⟨fun _ _ => rfl, fun _ _ _ => rfl⟩
  | object m fs ih =>
    have hfields := fun f hf => (ih f hf).1
    refine ⟨fun program hshared => ?_, fun times htimes hshared => ?_⟩
    · rw [sharedSlot] at hshared
      rw [copiesSlot]
      split
      · rename_i hn
        rw [if_pos hn] at hshared
        rw [count_labels_object, copiesFields_eq _ (Nat.le_refl 1) hfields hshared]
        rfl
      · rfl
    · rw [shared] at hshared
      rw [copies, count_labels_object, copiesFields_eq _ htimes hfields hshared]
      rfl

/-! ## The pass -/

/-- **No part of a tree is duplicated or invented**, but for kinds that pieces share. Let every object of a tree have
a label of its own, under a key that no builder writes. In the tree that a pass leaves behind, whether it returns or
raises, every label occurs once at most if it is in no shared kind; it occurs at most `copies` times in any case. All
labels are labels of the given tree, and an object without one is a built node. -/
theorem run_owns (category : Value) (keepComments : Bool) (sink : Diagnostics) {tree : Value} {key : String}
    (hkey : key ∉ Syntax.writtenKeys) (hjson : tree.isJson = true)
    (hlabelled : ∀ c ∈ tree.compounds, c.isObject = true → (c.label? key).isSome = true)
    (hdistinct : (tree.labels key).Nodup) :
    (∀ l, (∀ kind ∈ shared 1 tree, l ∉ kind.labels key) →
        ((run category keepComments sink tree).tree.labels key).count l ≤ 1) ∧
      (∀ l, ((run category keepComments sink tree).tree.labels key).count l ≤ copies key l 1 tree) ∧
      (∀ l ∈ (run category keepComments sink tree).tree.labels key, l ∈ tree.labels key) ∧
      ∀ c ∈ (run category keepComments sink tree).tree.compounds, c.isObject = true → c.label? key = none →
        Syntax.isBuilt c = true := by
  have hsteps := run_steps category keepComments sink hjson
  have htuple (c : Value) (hc : c ∈ tree.compounds) : c.isTuple = false := by
    have h := List.all_eq_true.mp hjson c hc
    simp only [Bool.and_eq_true, Bool.not_eq_true'] at h
    exact h.2
  have hcopies (l : Scalar) : ((run category keepComments sink tree).tree.labels key).count l ≤ copies key l 1 tree := by
    have hle := hsteps.copies_le (l := l) hkey htuple
    have hcount := (@count_labels_le key l (run category keepComments sink tree).tree.erase).2 1 (Nat.le_refl 1)
    rw [labels_erase] at hcount
    exact Nat.le_trans hcount hle
  have haccounted (c : Value) (hc : c ∈ (run category keepComments sink tree).tree.compounds) (hobj : c.isObject = true) :
      Syntax.isBuilt c = true ∨ ∃ l ∈ tree.labels key, c.label? key = some l := by
    have hbefore (d : Value) (hd : d ∈ tree.compounds) (hobj : d.isObject = true) :
        ∃ l ∈ tree.labels key, d.label? key = some l := by
      obtain ⟨l, hl⟩ := Option.isSome_iff_exists.mp (hlabelled d hd hobj)
      exact ⟨l, List.mem_filterMap.mpr ⟨d, hd, hl⟩, hl⟩
    have hmem : c.erase ∈ (run category keepComments sink tree).tree.erase.compounds := by
      rw [compounds_erase]
      exact List.mem_map_of_mem hc
    have hobj' : c.erase.isObject = true := by
      cases c with
      | object m fs => rw [erase_object]; rfl
      | _ => cases hobj
    have h := hsteps.accounted hbefore c.erase hmem hobj'
    rwa [Syntax.isBuilt_erase, label?_erase] at h
  refine ⟨fun l hl => ?_, hcopies, fun l hl => ?_, fun c hc hobj hnone => ?_⟩
  · refine Nat.le_trans (hcopies l) ?_
    rw [(copies_eq tree).2 1 (Nat.le_refl 1) hl]
    exact List.nodup_iff_count_le_one.mp hdistinct l
  · obtain ⟨c, hc, hcl⟩ := List.mem_filterMap.mp hl
    have hobj : c.isObject = true := by
      cases c with
      | object m fs => rfl
      | _ => cases hcl
    rcases haccounted c hc hobj with hbuilt | ⟨l', hl', hsame⟩
    · rw [Syntax.label?_of_isBuilt hkey hbuilt] at hcl
      cases hcl
    · rw [hcl] at hsame
      cases hsame
      exact hl'
  · rcases haccounted c hc hobj with hbuilt | ⟨l, _, hl⟩
    · exact hbuilt
    · rw [hnone] at hl
      cases hl

/-- An object with a number as its label. -/
def Sample.numbered (n : Int) (fs : Fields) : Value := .new (("uid", .int n) :: fs)

/-- A statement with a comment and an object as its kind. One of its declarators loads a module, and two do not. -/
def Sample.owned : Value :=
  numbered 1 [("type", NodeType.variableDeclaration.value), ("kind", numbered 2 [("name", .text "const")]),
    ("leadingComments", .newList [numbered 3 [("value", .text "first")]]),
    ("declarations", .newList [
      numbered 4 [("type", NodeType.variableDeclarator.value),
        ("id", numbered 5 [("type", NodeType.identifier.value), ("name", .text "a")]),
        ("init", numbered 6 [("type", NodeType.callExpression.value),
          ("callee", numbered 7 [("type", NodeType.identifier.value), ("name", .text "require")]),
          ("arguments", .newList [numbered 8 [("type", NodeType.literal.value), ("value", .text "m")]])])],
      numbered 9 [("type", NodeType.variableDeclarator.value),
        ("id", numbered 10 [("type", NodeType.identifier.value), ("name", .text "b")]), ("init", .null)],
      .int 0])]

/-- A program with that statement, and a declaration that stops the pass. -/
def Sample.ownedThenStopped : Value :=
  numbered 0 [("type", NodeType.program.value), ("body", .newList [Sample.owned,
    numbered 11 [("type", NodeType.variableDeclaration.value), ("declarations", .int 1)]])]

theorem run_owns_sample :
    let r := run (.text "commonjs") true (.empty .standard false) Sample.ownedThenStopped
    "uid" ∉ Syntax.writtenKeys ∧ Sample.ownedThenStopped.isJson = true ∧
      (∀ c ∈ Sample.ownedThenStopped.compounds, c.isObject = true → (c.label? "uid").isSome = true) ∧
      (Sample.ownedThenStopped.labels "uid").Nodup ∧ r.fault ≠ none ∧
      (r.tree.labels "uid").count (.int 3) ≤ 1 ∧ copies "uid" (.int 2) 1 Sample.ownedThenStopped = 2 ∧
      (r.tree.labels "uid").count (.int 2) ≤ copies "uid" (.int 2) 1 Sample.ownedThenStopped ∧
      (∀ l ∈ r.tree.labels "uid", l ∈ Sample.ownedThenStopped.labels "uid") ∧
      ∀ c ∈ r.tree.compounds, c.isObject = true → c.label? "uid" = none → Syntax.isBuilt c = true := by
  intro r
  have hkey : "uid" ∉ Syntax.writtenKeys := by decide
  have hjson : Sample.ownedThenStopped.isJson = true := by decide +kernel
  have hlabelled : ∀ c ∈ Sample.ownedThenStopped.compounds, c.isObject = true → (c.label? "uid").isSome = true := by
    decide +kernel
  have hdistinct : (Sample.ownedThenStopped.labels "uid").Nodup := by decide +kernel
  obtain ⟨honce, hcopies, hlabels, hbuilt⟩ :=
    run_owns (.text "commonjs") true (.empty .standard false) hkey hjson hlabelled hdistinct
  exact ⟨hkey, hjson, hlabelled, hdistinct, by decide +kernel, honce (.int 3) (by decide +kernel), by decide +kernel,
    hcopies (.int 2), hlabels, hbuilt⟩

/-- A program with that statement alone. -/
def Sample.ownedAlone : Value := numbered 0 [("type", NodeType.program.value), ("body", .newList [Sample.owned])]

/-- The two plain pieces share the kind, so its label occurs twice. -/
theorem labels_shared :
    let r := run (.text "commonjs") true (.empty .standard false) Sample.ownedAlone
    Sample.ownedAlone.isJson = true ∧
      (∀ c ∈ Sample.ownedAlone.compounds, c.isObject = true → (c.label? "uid").isSome = true) ∧
      (Sample.ownedAlone.labels "uid").Nodup ∧ r.fault = none ∧ (r.tree.labels "uid").count (.int 2) = 2 := by
  decide +kernel

end Lift

end EsmLift
