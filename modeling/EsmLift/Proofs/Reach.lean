import EsmLift.Lift.Pass
import EsmLift.Proofs.Erasure

/-!
# `Proofs.Reach` — the nodes that a walk reaches

A walk goes from an object through its fields, metadata left out, to the node in a field and to the nodes among
the items of a list. `Value.reached` lists what is reached below a node, each with its owner, in the order of the
walk. It does not mention the walk itself: it is a reading of one tree that stands still.

A candidate in a list of a program is going to be replaced. The list and the candidate are then **pending**: the
pass will edit the one and take out the other. A value without pending marks is left as it is.

## Contents

* `Value.reached`, `Value.visits`, `candidatesOf`;
* `Value.statements`: the items of the lists of a program;
* `Value.owner_reached`: owners are reached before what they own;
* `Value.pending`, `pending_eq_nil`: nothing is pending if no candidate is owned by a program.
-/

namespace EsmLift

/-- Whether a value is a candidate; a fault counts as no. -/
def Statement.loads (v : Value) : Bool :=
  match Statement.isCandidate v with
  | .ok b => b
  | .error _ => false

theorem Statement.loads_iff {v : Value} : Statement.loads v = true ↔ Statement.isCandidate v = .ok true := by
  rw [loads]
  cases isCandidate v with
  | error fault => simp
  | ok b => simp

/-- Candidates are variable declarations. -/
theorem Statement.isA_of_loads {v : Value} (h : Statement.loads v = true) :
    v.isA .variableDeclaration = true := by
  cases v with
  | object m fs =>
    rw [loads, isCandidate_object] at h
    cases hA : (Value.object m fs).isA .variableDeclaration with
    | true => rfl
    | false => rw [hA] at h; exact absurd h (by simp)
  | _ => exact absurd h Bool.false_ne_true

theorem Value.isNode_of_isA {v : Value} {t : NodeType} (h : v.isA t = true) : v.isNode = true := by
  rw [Value.isNode, Value.isA_iff.mp h, Option.isSome_some]

theorem Value.isObject_of_isNode {v : Value} (h : v.isNode = true) : v.isObject = true := by
  cases v with
  | object m fs => rfl
  | _ => cases h

theorem Statement.isNode_of_loads {v : Value} (h : Statement.loads v = true) : v.isNode = true :=
  Value.isNode_of_isA (isA_of_loads h)

theorem Statement.loads_of_not_node {v : Value} (h : v.isNode = false) : loads v = false := by
  cases hl : loads v with
  | false => rfl
  | true => rw [isNode_of_loads hl] at h; cases h

theorem Statement.loads_erase (v : Value) : Statement.loads v.erase = Statement.loads v := by
  rw [loads, loads, isCandidate_erase]

namespace Value

theorem size_pos (v : Value) : 0 < v.size := by
  cases v <;> simp only [size] <;> omega

mutual
/-- The nodes reached below an object, each with its owner, owners first. -/
def reached : Value → List (Value × Value)
  | object m fs => reachedFields (object m fs) fs
  | _ => []

/-- The nodes reached through fields of `owner`. -/
def reachedFields (owner : Value) : List (String × Value) → List (Value × Value)
  | [] => []
  | (k, v) :: rest =>
    (if Syntax.metadataKeys.contains k then [] else reachedSlot owner v) ++ reachedFields owner rest

/-- The nodes reached through the value of one field. -/
def reachedSlot (owner : Value) : Value → List (Value × Value)
  | list _ xs => reachedItems owner xs
  | object m fs =>
    if (object m fs).isNode then (owner, object m fs) :: reachedFields (object m fs) fs else []
  | _ => []

/-- The nodes reached through the items of a list. -/
def reachedItems (owner : Value) : List Value → List (Value × Value)
  | [] => []
  | v :: rest => (if v.isNode then (owner, v) :: reached v else []) ++ reachedItems owner rest
end

/-- What a walk over a tree that stands still visits: the root without owner, then all nodes below it. -/
def visits (v : Value) : List (Option Value × Value) :=
  (none, v) :: v.reached.map fun p => (some p.1, p.2)

/-- The statements in the fields of a program: the items of its lists, those of metadata apart. -/
def statementsOf (fs : Fields) : List Value :=
  (fs.filter fun f => !Syntax.metadataKeys.contains f.1).flatMap fun f => Require.listed f.2

/-- The statements of a program. -/
def statements : Value → List Value
  | object _ fs => statementsOf fs
  | _ => []

mutual
/-- The marks of the lists of programs that hold candidates, and of these candidates, below an object. -/
def pending : Value → List Nat
  | object m fs => pendingFields ((object m fs).isA .program) fs
  | _ => []

/-- The pending marks in the fields of an object, which is a program or not. -/
def pendingFields (program : Bool) : List (String × Value) → List Nat
  | [] => []
  | (k, v) :: rest =>
    (if Syntax.metadataKeys.contains k then [] else pendingSlot program v) ++ pendingFields program rest

/-- The pending marks in the value of one field. -/
def pendingSlot (program : Bool) : Value → List Nat
  | list m xs => (if program && xs.any Statement.loads then [m] else []) ++ pendingItems program xs
  | object m fs =>
    if (object m fs).isNode then pendingFields ((object m fs).isA .program) fs else []
  | _ => []

/-- The pending marks in the items of a list. -/
def pendingItems (program : Bool) : List Value → List Nat
  | [] => []
  | v :: rest =>
    (if v.isNode then (if program && Statement.loads v then [v.mark] else []) ++ pending v else []) ++
      pendingItems program rest
end

/-! ## The nodes below -/

theorem statementsOf_cons (key : String) (v : Value) (rest : Fields) : statementsOf ((key, v) :: rest)
    = (if Syntax.metadataKeys.contains key then [] else Require.listed v) ++ statementsOf rest := by
  unfold statementsOf
  cases hk : Syntax.metadataKeys.contains key with
  | true =>
    rw [List.filter_cons_of_neg (by rw [hk]; decide)]
    rfl
  | false =>
    rw [List.filter_cons_of_pos (by rw [hk]; decide), List.flatMap_cons]
    rfl

theorem reachedSlot_node {v : Value} (owner : Value) (h : v.isNode = true) :
    reachedSlot owner v = (owner, v) :: v.reached := by
  cases v with
  | object m fs => rw [reachedSlot, if_pos h, reached]
  | _ => cases h

theorem reachedSlot_other {v : Value} (owner : Value) (h : v.isNode = false) (hl : ∀ m xs, v ≠ list m xs) :
    reachedSlot owner v = [] := by
  cases v with
  | object m fs => rw [reachedSlot, if_neg (by rw [h]; exact Bool.false_ne_true)]
  | list m xs => exact absurd rfl (hl m xs)
  | _ => rfl

theorem reachedItems_append (owner : Value) (xs ys : List Value) :
    reachedItems owner (xs ++ ys) = reachedItems owner xs ++ reachedItems owner ys := by
  induction xs with
  | nil => rfl
  | cons x rest ih => simp only [List.cons_append, reachedItems, ih, List.append_assoc]

/-- A node among the items of a list is reached, and so is what is reached below it. -/
theorem mem_reachedItems {o x : Value} {xs : List Value} (hx : x ∈ xs) (hn : x.isNode = true) {p : Value × Value}
    (hp : p ∈ (o, x) :: x.reached) : p ∈ reachedItems o xs := by
  induction xs with
  | nil => exact absurd hx List.not_mem_nil
  | cons y rest ih =>
    rw [reachedItems]
    rcases List.mem_cons.mp hx with rfl | hx
    · rw [if_pos hn]
      exact List.mem_append_left _ hp
    · exact List.mem_append_right _ (ih hx)

theorem mem_reachedFields {o v : Value} {fs : Fields} {key : String} (hf : (key, v) ∈ fs)
    (hk : Syntax.metadataKeys.contains key = false) {p : Value × Value} (hp : p ∈ reachedSlot o v) :
    p ∈ reachedFields o fs := by
  induction fs with
  | nil => exact absurd hf List.not_mem_nil
  | cons g rest ih =>
    rw [reachedFields]
    rcases List.mem_cons.mp hf with rfl | hf
    · rw [hk, if_neg Bool.false_ne_true]
      exact List.mem_append_left _ hp
    · exact List.mem_append_right _ (ih hf)

mutual
/-- An owner was reached itself, unless it is the object at the top. -/
theorem owner_reached {p : Value × Value} :
    (v : Value) → p ∈ v.reached → p.1 = v ∨ p.1 ∈ v.reached.map (·.2)
  | .null, h | .bool _, h | .int _, h | .double _, h | .text _, h | .list .., h | .tuple _, h =>
    absurd h List.not_mem_nil
  | .object m fs, h => owner_reachedFields (.object m fs) fs h

theorem owner_reachedFields {p : Value × Value} (o : Value) :
    (fs : List (String × Value)) → p ∈ reachedFields o fs → p.1 = o ∨ p.1 ∈ (reachedFields o fs).map (·.2)
  | [], h => absurd h List.not_mem_nil
  | (key, v) :: rest, h => by
    rw [reachedFields] at h ⊢
    rw [List.map_append]
    rcases List.mem_append.mp h with h | h
    · split at h
      · exact absurd h List.not_mem_nil
      · rename_i hk
        rw [if_neg hk]
        exact (owner_reachedSlot o v h).imp id (List.mem_append_left _)
    · exact (owner_reachedFields o rest h).imp id (List.mem_append_right _)

theorem owner_reachedSlot {p : Value × Value} (o : Value) :
    (v : Value) → p ∈ reachedSlot o v → p.1 = o ∨ p.1 ∈ (reachedSlot o v).map (·.2)
  | .null, h | .bool _, h | .int _, h | .double _, h | .text _, h | .tuple _, h => absurd h List.not_mem_nil
  | .list m xs, h => owner_reachedItems o xs h
  | .object m fs, h => by
    rw [reachedSlot] at h ⊢
    split at h
    · rename_i hn
      rw [if_pos hn, List.map_cons]
      rcases List.mem_cons.mp h with rfl | h
      · exact .inl rfl
      · rcases owner_reachedFields (.object m fs) fs h with heq | hmem
        · exact .inr (List.mem_cons.mpr (.inl heq))
        · exact .inr (List.mem_cons_of_mem _ hmem)
    · exact absurd h List.not_mem_nil

theorem owner_reachedItems {p : Value × Value} (o : Value) :
    (xs : List Value) → p ∈ reachedItems o xs → p.1 = o ∨ p.1 ∈ (reachedItems o xs).map (·.2)
  | [], h => absurd h List.not_mem_nil
  | v :: rest, h => by
    rw [reachedItems] at h ⊢
    rw [List.map_append]
    rcases List.mem_append.mp h with h | h
    · split at h
      · rename_i hn
        rw [if_pos hn, List.map_cons]
        rcases List.mem_cons.mp h with rfl | h
        · exact .inl rfl
        · rcases owner_reached v h with heq | hmem
          · exact .inr (List.mem_append_left _ (List.mem_cons.mpr (.inl heq)))
          · exact .inr (List.mem_append_left _ (List.mem_cons_of_mem _ hmem))
      · exact absurd h List.not_mem_nil
    · exact (owner_reachedItems o rest h).imp id (List.mem_append_right _)
end

/-- The nodes visited from a root, and those reached from it with a stand-in for its owner. -/
theorem map_snd_visits (v : Value) : v.visits.map (·.2) = ((null, v) :: v.reached).map (·.2) := by
  rw [visits, List.map_cons, List.map_map]
  rfl

/-! ## Candidates among visits -/

/-- The candidates among nodes that were reached. -/
def candidatesOf (nodes : List (Value × Value)) : List Value := (nodes.map (·.2)).filter Statement.loads

theorem candidatesOf_append (xs ys : List (Value × Value)) :
    candidatesOf (xs ++ ys) = candidatesOf xs ++ candidatesOf ys := by
  simp [candidatesOf]

theorem candidatesOf_cons (o v : Value) (rest : List (Value × Value)) :
    candidatesOf ((o, v) :: rest) = (if Statement.loads v then [v] else []) ++ candidatesOf rest := by
  simp only [candidatesOf, List.map_cons, List.filter_cons]
  split <;> rfl

/-! ## Pending marks -/

theorem mem_compounds_self {v : Value} (h : v.isNode = true) : v ∈ v.compounds := by
  cases v with
  | object m fs => exact List.mem_cons_self
  | _ => cases h

theorem mark_mem_marks {v : Value} (h : v.isNode = true) : v.mark ∈ v.marks :=
  List.mem_map_of_mem (mem_compounds_self h)

theorem pendingSlot_node {v : Value} (program : Bool) (h : v.isNode = true) :
    pendingSlot program v = v.pending := by
  cases v with
  | object m fs => rw [pendingSlot, if_pos h, pending]
  | _ => cases h

theorem pendingItems_append (program : Bool) (xs ys : List Value) :
    pendingItems program (xs ++ ys) = pendingItems program xs ++ pendingItems program ys := by
  induction xs with
  | nil => rfl
  | cons x rest ih => simp only [List.cons_append, pendingItems, ih, List.append_assoc]

theorem pendingFields_append (program : Bool) (fs gs : Fields) :
    pendingFields program (fs ++ gs) = pendingFields program fs ++ pendingFields program gs := by
  induction fs with
  | nil => rfl
  | cons f rest ih => obtain ⟨k, v⟩ := f; simp only [List.cons_append, pendingFields, ih, List.append_assoc]

mutual
/-- What is pending is in the value. -/
theorem mem_marks_of_pending {k : Nat} : (v : Value) → k ∈ v.pending → k ∈ v.marks
  | .object m fs, h => by
    rw [marks_object]
    exact List.mem_cons_of_mem _ (mem_marks_of_pendingFields _ fs h)

theorem mem_marks_of_pendingFields {k : Nat} (program : Bool) :
    (fs : List (String × Value)) → k ∈ pendingFields program fs → k ∈ marksFields fs
  | (key, v) :: rest, h => by
    rw [pendingFields] at h
    rw [marksFields_cons]
    rcases List.mem_append.mp h with h | h
    · split at h
      · exact absurd h List.not_mem_nil
      · exact List.mem_append_left _ (mem_marks_of_pendingSlot program v h)
    · exact List.mem_append_right _ (mem_marks_of_pendingFields program rest h)

theorem mem_marks_of_pendingSlot {k : Nat} (program : Bool) :
    (v : Value) → k ∈ pendingSlot program v → k ∈ v.marks
  | .list m xs, h => by
    rw [pendingSlot] at h
    rw [marks_list]
    rcases List.mem_append.mp h with h | h
    · split at h
      · exact List.mem_cons.mpr (.inl (List.mem_singleton.mp h))
      · exact absurd h List.not_mem_nil
    · exact List.mem_cons_of_mem _ (mem_marks_of_pendingItems program xs h)
  | .object m fs, h => by
    rw [pendingSlot] at h
    rw [marks_object]
    split at h
    · exact List.mem_cons_of_mem _ (mem_marks_of_pendingFields _ fs h)
    · exact absurd h List.not_mem_nil

theorem mem_marks_of_pendingItems {k : Nat} (program : Bool) :
    (xs : List Value) → k ∈ pendingItems program xs → k ∈ marksItems xs
  | v :: rest, h => by
    rw [pendingItems] at h
    rw [marksItems_cons]
    rcases List.mem_append.mp h with h | h
    · refine List.mem_append_left _ ?_
      split at h
      · rename_i hnode
        rcases List.mem_append.mp h with h | h
        · split at h
          · rw [List.mem_singleton.mp h]
            exact mark_mem_marks hnode
          · exact absurd h List.not_mem_nil
        · exact mem_marks_of_pending v h
      · exact absurd h List.not_mem_nil
    · exact List.mem_append_right _ (mem_marks_of_pendingItems program rest h)
end

mutual
/-- Nothing is pending if no candidate is owned by a program. -/
theorem pending_eq_nil :
    (v : Value) → (∀ p ∈ v.reached, Statement.loads p.2 = true → p.1.isA .program = false) → v.pending = []
  | .null, _ | .bool _, _ | .int _, _ | .double _, _ | .text _, _ | .list .., _ | .tuple _, _ => rfl
  | .object m fs, h => pendingFields_eq_nil (.object m fs) fs h

theorem pendingFields_eq_nil (o : Value) :
    (fs : List (String × Value)) →
      (∀ p ∈ reachedFields o fs, Statement.loads p.2 = true → p.1.isA .program = false) →
      pendingFields (o.isA .program) fs = []
  | [], _ => rfl
  | (key, v) :: rest, h => by
    rw [reachedFields] at h
    obtain ⟨hv, hrest⟩ := List.forall_mem_append.mp h
    rw [pendingFields, pendingFields_eq_nil o rest hrest, List.append_nil]
    split
    · rfl
    · rename_i hk
      rw [if_neg hk] at hv
      exact pendingSlot_eq_nil o v hv

theorem pendingSlot_eq_nil (o : Value) :
    (v : Value) → (∀ p ∈ reachedSlot o v, Statement.loads p.2 = true → p.1.isA .program = false) →
      pendingSlot (o.isA .program) v = []
  | .null, _ | .bool _, _ | .int _, _ | .double _, _ | .text _, _ | .tuple _, _ => rfl
  | .list m xs, h => by
    rw [pendingSlot, pendingItems_eq_nil o xs h, List.append_nil]
    refine if_neg fun hp => ?_
    obtain ⟨hprog, hany⟩ := Bool.and_eq_true_iff.mp hp
    obtain ⟨x, hx, hload⟩ := List.any_eq_true.mp hany
    have hmem := mem_reachedItems (o := o) hx (Statement.isNode_of_loads hload) List.mem_cons_self
    exact absurd hprog (by rw [h _ hmem hload]; exact Bool.false_ne_true)
  | .object m fs, h => by
    rw [reachedSlot] at h
    rw [pendingSlot]
    split
    · rename_i hn
      rw [if_pos hn] at h
      exact pendingFields_eq_nil (.object m fs) fs (List.forall_mem_cons.mp h).2
    · rfl

theorem pendingItems_eq_nil (o : Value) :
    (xs : List Value) → (∀ p ∈ reachedItems o xs, Statement.loads p.2 = true → p.1.isA .program = false) →
      pendingItems (o.isA .program) xs = []
  | [], _ => rfl
  | v :: rest, h => by
    rw [reachedItems] at h
    obtain ⟨hv, hrest⟩ := List.forall_mem_append.mp h
    rw [pendingItems, pendingItems_eq_nil o rest hrest, List.append_nil]
    split
    · rename_i hn
      rw [if_pos hn] at hv
      obtain ⟨hself, hbelow⟩ := List.forall_mem_cons.mp hv
      rw [pending_eq_nil v hbelow, List.append_nil]
      refine if_neg fun hp => ?_
      obtain ⟨hprog, hload⟩ := Bool.and_eq_true_iff.mp hp
      exact absurd hprog (by rw [hself hload]; exact Bool.false_ne_true)
    · rfl
end

/-- Nothing is pending where there are no programs. -/
theorem pending_of_no_program {v : Value} (hv : v.isA .program = false)
    (h : ∀ p ∈ v.reached, p.2.isA .program = false) : v.pending = [] := by
  apply pending_eq_nil
  intro p hp _
  rcases owner_reached v hp with heq | hmem
  · rw [heq]
    exact hv
  · obtain ⟨q, hq, heq⟩ := List.mem_map.mp hmem
    rw [← heq]
    exact h q hq

/-! ## Pending marks without marks, and after stamping -/

mutual
/-- Forgetting the marks leaves as many of them pending. -/
theorem pending_erase : (v : Value) → v.erase.pending = v.pending.map fun _ => 0
  | .null | .bool _ | .int _ | .double _ | .text _ | .list .. | .tuple _ => rfl
  | .object m fs => by
    have hA := regular_erase.isA (.object m fs) .program
    rw [erase] at hA ⊢
    rw [pending, pending, hA, pendingFields_erase _ fs]

theorem pendingFields_erase (program : Bool) : (fs : List (String × Value)) →
    pendingFields program (eraseFields fs) = (pendingFields program fs).map fun _ => 0
  | [] => rfl
  | (k, v) :: rest => by
    rw [eraseFields, pendingFields, pendingFields, List.map_append, pendingFields_erase program rest]
    split
    · rfl
    · rw [pendingSlot_erase program v]

theorem pendingSlot_erase (program : Bool) :
    (v : Value) → pendingSlot program v.erase = (pendingSlot program v).map fun _ => 0
  | .null | .bool _ | .int _ | .double _ | .text _ | .tuple _ => rfl
  | .list m xs => by
    have hany : (eraseItems xs).any Statement.loads = xs.any Statement.loads := by
      rw [eraseItems_eq_map, List.any_map]
      exact congrArg xs.any (funext Statement.loads_erase)
    rw [erase, pendingSlot, pendingSlot, List.map_append, pendingItems_erase program xs, hany]
    split <;> rfl
  | .object m fs => by
    have hA := regular_erase.isA (.object m fs) .program
    have hN := isNode_erase (.object m fs)
    rw [erase] at hA hN ⊢
    rw [pendingSlot, pendingSlot, hN, hA]
    split
    · exact pendingFields_erase _ fs
    · rfl

theorem pendingItems_erase (program : Bool) : (xs : List Value) →
    pendingItems program (eraseItems xs) = (pendingItems program xs).map fun _ => 0
  | [] => rfl
  | v :: rest => by
    rw [eraseItems, pendingItems, pendingItems, List.map_append, pendingItems_erase program rest, isNode_erase,
      Statement.loads_erase]
    split
    · rename_i hn
      rw [pending_erase v, List.map_append]
      have hmark : v.erase.mark = 0 := by cases v <;> rfl
      split
      · rw [hmark]; rfl
      · rfl
    · rfl
end

theorem isNode_stamp (next : Nat) (v : Value) : (v.stamp next).1.isNode = v.isNode := by
  rw [← isNode_erase, erase_stamp, isNode_erase]

theorem isA_stamp (next : Nat) (v : Value) (t : NodeType) : (v.stamp next).1.isA t = v.isA t := by
  rw [← regular_erase.isA, erase_stamp, regular_erase.isA]

theorem loads_stamp (next : Nat) (v : Value) : Statement.loads (v.stamp next).1 = Statement.loads v := by
  rw [← Statement.loads_erase, erase_stamp, Statement.loads_erase]

theorem any_loads_stampItems (next : Nat) (xs : List Value) :
    (stampItems next xs).1.any Statement.loads = xs.any Statement.loads := by
  induction xs generalizing next with
  | nil => rfl
  | cons x rest ih => simp only [stampItems, List.any_cons, loads_stamp, ih]

theorem mark_stamp (next : Nat) {v : Value} (h : v.mark ≠ 0) : (v.stamp next).1.mark = v.mark := by
  cases v with
  | list m xs => simp only [stamp, if_neg (show m ≠ 0 from h), mark]
  | object m fs => simp only [stamp, if_neg (show m ≠ 0 from h), mark]
  | _ => exact absurd rfl h

mutual
/-- Stamping makes no mark pending, if what is pending is marked already. -/
theorem mem_pending_stamp {k : Nat} (next : Nat) :
    (v : Value) → 0 ∉ v.pending → k ∈ (v.stamp next).1.pending → k ∈ v.pending
  | .null, _, h | .bool _, _, h | .int _, _, h | .double _, _, h | .text _, _, h | .tuple _, _, h =>
    absurd h List.not_mem_nil
  | .list m xs, _, h => by
    by_cases hm : m = 0
    · simp only [stamp, if_pos hm] at h; exact absurd h List.not_mem_nil
    · simp only [stamp, if_neg hm] at h; exact absurd h List.not_mem_nil
  | .object m fs, h0, h => by
    have hA := isA_stamp next (.object m fs) .program
    rw [pending] at h0 ⊢
    by_cases hm : m = 0
    · simp only [stamp, if_pos hm] at h hA
      rw [pending, hA] at h
      exact mem_pendingFields_stamp _ (next + 1) fs h0 h
    · simp only [stamp, if_neg hm] at h hA
      rw [pending, hA] at h
      exact mem_pendingFields_stamp _ next fs h0 h

theorem mem_pendingFields_stamp {k : Nat} (program : Bool) (next : Nat) :
    (fs : List (String × Value)) → 0 ∉ pendingFields program fs →
      k ∈ pendingFields program (stampFields next fs).1 → k ∈ pendingFields program fs
  | [], _, h => absurd h List.not_mem_nil
  | (key, v) :: rest, h0, h => by
    simp only [stampFields, pendingFields, List.mem_append, not_or] at h h0 ⊢
    rcases h with h | h
    · split at h
      · exact absurd h List.not_mem_nil
      · rename_i hk
        rw [if_neg hk] at h0 ⊢
        exact .inl (mem_pendingSlot_stamp program next v h0.1 h)
    · exact .inr (mem_pendingFields_stamp program _ rest h0.2 h)

theorem mem_pendingSlot_stamp {k : Nat} (program : Bool) (next : Nat) :
    (v : Value) → 0 ∉ pendingSlot program v → k ∈ pendingSlot program (v.stamp next).1 → k ∈ pendingSlot program v
  | .null, _, h | .bool _, _, h | .int _, _, h | .double _, _, h | .text _, _, h | .tuple _, _, h =>
    absurd h List.not_mem_nil
  | .list m xs, h0, h => by
    rw [pendingSlot] at h0 ⊢
    obtain ⟨hself, hxs⟩ := not_or.mp (mt List.mem_append.mpr h0)
    by_cases hm : m = 0
    · simp only [stamp, if_pos hm, pendingSlot, any_loads_stampItems] at h
      rw [hm] at hself
      rcases List.mem_append.mp h with h | h
      · split at h
        · rename_i hp
          rw [if_pos hp] at hself
          exact absurd (List.mem_singleton.mpr rfl) hself
        · exact absurd h List.not_mem_nil
      · exact List.mem_append_right _ (mem_pendingItems_stamp program (next + 1) xs hxs h)
    · simp only [stamp, if_neg hm, pendingSlot, any_loads_stampItems] at h
      rcases List.mem_append.mp h with h | h
      · exact List.mem_append_left _ h
      · exact List.mem_append_right _ (mem_pendingItems_stamp program next xs hxs h)
  | .object m fs, h0, h => by
    have hA := isA_stamp next (.object m fs) .program
    have hN := isNode_stamp next (.object m fs)
    rw [pendingSlot] at h0 ⊢
    by_cases hm : m = 0
    · simp only [stamp, if_pos hm] at h hA hN
      rw [pendingSlot, hA, hN] at h
      split at h
      · rename_i hn
        rw [if_pos hn] at h0 ⊢
        exact mem_pendingFields_stamp _ (next + 1) fs h0 h
      · exact absurd h List.not_mem_nil
    · simp only [stamp, if_neg hm] at h hA hN
      rw [pendingSlot, hA, hN] at h
      split at h
      · rename_i hn
        rw [if_pos hn] at h0 ⊢
        exact mem_pendingFields_stamp _ next fs h0 h
      · exact absurd h List.not_mem_nil

theorem mem_pendingItems_stamp {k : Nat} (program : Bool) (next : Nat) :
    (xs : List Value) → 0 ∉ pendingItems program xs →
      k ∈ pendingItems program (stampItems next xs).1 → k ∈ pendingItems program xs
  | [], _, h => absurd h List.not_mem_nil
  | v :: rest, h0, h => by
    simp only [stampItems, pendingItems, isNode_stamp, loads_stamp, List.mem_append, not_or] at h h0 ⊢
    rcases h with h | h
    · split at h
      · rename_i hn
        rw [if_pos hn] at h0 ⊢
        obtain ⟨hself, hv⟩ := not_or.mp (mt List.mem_append.mpr h0.1)
        refine .inl (List.mem_append.mpr ?_)
        rcases List.mem_append.mp h with h | h
        · split at h
          · rename_i hl
            rw [if_pos hl] at hself ⊢
            rw [mark_stamp next fun hm => hself (List.mem_singleton.mpr hm.symm)] at h
            exact .inl h
          · exact absurd h List.not_mem_nil
        · exact .inr (mem_pending_stamp next v hv h)
      · exact absurd h List.not_mem_nil
    · exact .inr (mem_pendingItems_stamp program _ rest h0.2 h)
end

end Value
end EsmLift
