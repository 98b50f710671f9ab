import EsmLift.Proofs.Keeping
import EsmLift.Proofs.Recursion
import Mathlib.Data.List.Forall2

/-!
# `Proofs.Positions` — a walk that keeps everything visits the tree

Where the nodes of a tree stand can be said without a walk. An object **holds** a node at a spot: in a field that is no
metadata, or in the list in such a field. The **positions** of a tree are the paths of spots that lead from its root
from node to node. A position comes before all those below it, and positions that part at some object are in the order
of its fields, and then of the items of a list. That is the lexicographic order of paths.

A visitor that keeps every node is asked about each position once, in this order, with the object that holds the node
there; and the walk leaves the tree as it is. What is below a metadata field, below an object without type or in a list
inside a list has no position.

## Contents

* `Spot`, `Spot.Before`, `Value.Holds`, `Position`: where nodes stand;
* `Value.Owns`, `position_iff`: positions from the root down;
* `Listed`: nodes in the order of their positions; `reached_listed`: so are the nodes that are reached below an object;
* `walk_visits_positions`.
-/

namespace EsmLift

open Value

/-! ## Positions -/

/-- A spot in an object where a node can stand: the number of a field, and if a list stands there the number of an
item. -/
structure Spot where
  field : Nat
  item : Option Nat

/-- Spots in an earlier field come first, and in one field those of earlier items. -/
def Spot.Before (s s' : Spot) : Prop :=
  s.field < s'.field ∨ s.field = s'.field ∧ ∃ i j, s.item = some i ∧ s'.item = some j ∧ i < j

/-- The object holds the node at the spot. -/
inductive Value.Holds : Value → Spot → Value → Prop
  /-- The node is the value of a field. -/
  | field {m i : Nat} {fs : Fields} {key : String} {w : Value} (h : fs[i]? = some (key, w))
      (hkey : Syntax.metadataKeys.contains key = false) (hnode : w.isNode = true) : Holds (.object m fs) ⟨i, none⟩ w
  /-- The node is an item of the list that is the value of a field. -/
  | item {m i k j : Nat} {fs : Fields} {key : String} {xs : List Value} {w : Value}
      (h : fs[i]? = some (key, .list k xs)) (hkey : Syntax.metadataKeys.contains key = false)
      (hitem : xs[j]? = some w) (hnode : w.isNode = true) : Holds (.object m fs) ⟨i, some j⟩ w

/-- A position of a tree, the node that stands there, and the object that holds it. -/
inductive Position (tree : Value) : List Spot → Value × Option Value → Prop
  | root : Position tree [] (tree, none)
  | step {path : List Spot} {v w : Value} {owner : Option Value} {s : Spot} (h : Position tree path (v, owner))
      (hs : v.Holds s w) : Position tree (path ++ [s]) (w, some v)

/-- The same below an object, read from the first step: the path leads to a node, given after its owner. -/
inductive Value.Owns : Value → List Spot → Value × Value → Prop
  | here {v w : Value} {s : Spot} (h : v.Holds s w) : Owns v [s] (v, w)
  | deeper {v w : Value} {s : Spot} {path : List Spot} {q : Value × Value} (h : v.Holds s w) (h' : Owns w path q) :
      Owns v (s :: path) q

/-- One step further down. -/
theorem Value.Owns.snoc {v w : Value} {path : List Spot} {q : Value × Value} {s : Spot} (h : v.Owns path q)
    (hs : q.2.Holds s w) : v.Owns (path ++ [s]) (q.2, w) := by
  induction h with
  | here h => exact .deeper h (.here hs)
  | deeper h _ ih => exact .deeper h (ih hs)

theorem Position.append {tree v : Value} {owner : Option Value} {front path : List Spot} {q : Value × Value}
    (h : Position tree front (v, owner)) (hpath : v.Owns path q) : Position tree (front ++ path) (q.2, some q.1) := by
  induction hpath generalizing front owner with
  | here hs => exact .step h hs
  | @deeper v w s path q hs _ ih =>
    have hfurther := ih (.step h hs)
    rwa [List.append_assoc] at hfurther

/-- A position is the root or stands below it. -/
theorem position_iff {tree w : Value} {owner : Option Value} {path : List Spot} :
    Position tree path (w, owner) ↔
      (path = [] ∧ w = tree ∧ owner = none) ∨ ∃ o, owner = some o ∧ tree.Owns path (o, w) := by
  constructor
  · intro h
    generalize hq : (w, owner) = q at h
    induction h generalizing w owner with
    | root =>
      cases hq
      exact .inl ⟨rfl, rfl, rfl⟩
    | @step path v w' owner' s _ hs ih =>
      cases hq
      right
      refine ⟨v, rfl, ?_⟩
      rcases ih rfl with ⟨rfl, rfl, _⟩ | ⟨o, _, howns⟩
      · exact .here hs
      · exact howns.snoc hs
  · rintro (⟨rfl, rfl, rfl⟩ | ⟨o, rfl, howns⟩)
    · exact .root
    · exact Position.append .root howns

/-! ## Nodes in the order of their positions -/

/-- The nodes, each after its owner, are those at the given spots of `v` and below them, in the order of their
positions. -/
def Listed (v : Value) (spots : Spot → Prop) (nodes : List (Value × Value)) : Prop :=
  ∃ paths : List (List Spot), paths.Pairwise (List.Lex Spot.Before) ∧
    (∀ path, path ∈ paths ↔ ∃ s rest, path = s :: rest ∧ spots s ∧ ∃ q, v.Owns path q) ∧
    List.Forall₂ v.Owns paths nodes

namespace Listed

variable {v w : Value} {spots spots' : Spot → Prop} {nodes nodes' : List (Value × Value)}

/-- Nothing stands at the spots. -/
theorem nil (h : ∀ s w, spots s → ¬v.Holds s w) : Listed v spots [] := by
  refine ⟨[], .nil, fun path => ⟨fun hmem => absurd hmem List.not_mem_nil, ?_⟩, .nil⟩
  rintro ⟨s, rest, rfl, hs, q, howns⟩
  cases howns with
  | here hholds => exact absurd hholds (h s _ hs)
  | deeper hholds _ => exact absurd hholds (h s _ hs)

/-- Spots at which nothing stands do not count. -/
theorem congr (h : Listed v spots nodes) (hiff : ∀ s w, v.Holds s w → (spots s ↔ spots' s)) :
    Listed v spots' nodes := by
  obtain ⟨paths, hsorted, hmem, hall⟩ := h
  refine ⟨paths, hsorted, fun path => (hmem path).trans ?_, hall⟩
  have hfirst {s : Spot} {rest : List Spot} {q : Value × Value} (howns : v.Owns (s :: rest) q) :
      spots s ↔ spots' s := by
    cases howns with
    | here hholds => exact hiff s _ hholds
    | deeper hholds _ => exact hiff s _ hholds
  constructor
  · rintro ⟨s, rest, rfl, hs, q, howns⟩
    exact ⟨s, rest, rfl, (hfirst howns).mp hs, q, howns⟩
  · rintro ⟨s, rest, rfl, hs, q, howns⟩
    exact ⟨s, rest, rfl, (hfirst howns).mpr hs, q, howns⟩

/-- One spot, with all that is below it. -/
theorem single {s : Spot} (hs : v.Holds s w) (hunique : ∀ w', v.Holds s w' → w' = w)
    (h : Listed w (fun _ => True) nodes) : Listed v (· = s) ((v, w) :: nodes) := by
  obtain ⟨paths, hsorted, hmem, hall⟩ := h
  refine ⟨[s] :: paths.map (s :: ·), List.pairwise_cons.mpr ⟨?_, ?_⟩, fun path => ?_, .cons (.here hs) ?_⟩
  · -- the node comes before what is below it, since no path there is empty
    intro path hpath
    obtain ⟨below, hbelow, rfl⟩ := List.mem_map.mp hpath
    obtain ⟨s', rest, rfl, _⟩ := (hmem below).mp hbelow
    exact .cons .nil
  · exact List.pairwise_map.mpr (hsorted.imp fun h => .cons h)
  · rw [List.mem_cons, List.mem_map]
    constructor
    · rintro (rfl | ⟨below, hbelow, rfl⟩)
      · exact ⟨s, [], rfl, rfl, _, .here hs⟩
      · obtain ⟨s', rest, rfl, _, q, howns⟩ := (hmem below).mp hbelow
        exact ⟨s, s' :: rest, rfl, rfl, q, .deeper hs howns⟩
    · rintro ⟨_, rest, rfl, rfl, q, howns⟩
      cases howns with
      | here _ => exact .inl rfl
      | deeper hholds howns =>
        obtain rfl := hunique _ hholds
        refine .inr ⟨rest, (hmem rest).mpr ?_, rfl⟩
        cases howns with
        | here hnext => exact ⟨_, _, rfl, trivial, _, .here hnext⟩
        | deeper hnext hlater => exact ⟨_, _, rfl, trivial, _, .deeper hnext hlater⟩
  · exact List.forall₂_map_left_iff.mpr (hall.imp fun _ _ h => .deeper hs h)

/-- Spots one after another. -/
theorem append (h : Listed v spots nodes) (h' : Listed v spots' nodes')
    (hbefore : ∀ s s', spots s → spots' s' → s.Before s') :
    Listed v (fun s => spots s ∨ spots' s) (nodes ++ nodes') := by
  obtain ⟨paths, hsorted, hmem, hall⟩ := h
  obtain ⟨paths', hsorted', hmem', hall'⟩ := h'
  refine ⟨paths ++ paths', List.pairwise_append.mpr ⟨hsorted, hsorted', ?_⟩, fun path => ?_, List.rel_append hall hall'⟩
  · intro path hpath path' hpath'
    obtain ⟨s, rest, rfl, hs, _⟩ := (hmem path).mp hpath
    obtain ⟨s', rest', rfl, hs', _⟩ := (hmem' path').mp hpath'
    exact .rel (hbefore s s' hs hs')
  · rw [List.mem_append, hmem, hmem']
    constructor
    · rintro (⟨s, rest, heq, hs, howns⟩ | ⟨s, rest, heq, hs, howns⟩)
      · exact ⟨s, rest, heq, .inl hs, howns⟩
      · exact ⟨s, rest, heq, .inr hs, howns⟩
    · rintro ⟨s, rest, heq, hs | hs, howns⟩
      · exact .inl ⟨s, rest, heq, hs, howns⟩
      · exact .inr ⟨s, rest, heq, hs, howns⟩

end Listed

/-! ## The nodes that are reached -/

namespace Value

/-- A spot holds one node at most. -/
theorem Holds.unique {v w w' : Value} {s : Spot} (h : v.Holds s w) (h' : v.Holds s w') : w' = w := by
  cases h with
  | field hfield _ _ =>
    cases h' with
    | field hfield' _ _ =>
      rw [hfield] at hfield'
      cases hfield'
      rfl
  | item hfield _ hitem _ =>
    cases h' with
    | item hfield' _ hitem' _ =>
      rw [hfield] at hfield'
      cases hfield'
      rw [hitem] at hitem'
      cases hitem'
      rfl

/-- What stands in a given field. -/
theorem Holds.at_field {m i : Nat} {fs : Fields} {key : String} {v w : Value} {s : Spot}
    (h : (Value.object m fs).Holds s w) (hat : fs[i]? = some (key, v)) (hs : s.field = i) :
    Syntax.metadataKeys.contains key = false ∧ w.isNode = true ∧
      ((s = ⟨i, none⟩ ∧ w = v) ∨ ∃ k xs j, v = .list k xs ∧ s = ⟨i, some j⟩ ∧ xs[j]? = some w) := by
  subst hs
  cases h with
  | field hfield hkey hnode =>
    rw [hfield] at hat
    cases hat
    exact ⟨hkey, hnode, .inl ⟨rfl, rfl⟩⟩
  | item hfield hkey hitem hnode =>
    rw [hfield] at hat
    cases hat
    exact ⟨hkey, hnode, .inr ⟨_, _, _, rfl, rfl, hitem⟩⟩

/-- A field with a value that is neither a list nor a node holds nothing. -/
theorem listed_other {m i : Nat} {fs : Fields} {key : String} {v : Value} (hat : fs[i]? = some (key, v))
    (hnode : v.isNode = false) (hlist : ∀ k xs, v ≠ .list k xs) : Listed (.object m fs) (fun s => s.field = i) [] := by
  refine .nil fun s w hs hholds => ?_
  obtain ⟨_, hw, ⟨_, rfl⟩ | ⟨k, xs, _, rfl, _⟩⟩ := hholds.at_field hat hs
  · rw [hnode] at hw
    cases hw
  · exact hlist k xs rfl

-- `reached` goes through the parts of an object one after another. Each part is listed at its own spots, and these come
-- after the spots of the parts before it.
mutual
/-- **The nodes below an object are reached in the order of their positions.** -/
theorem reached_listed : (v : Value) → Listed v (fun _ => True) v.reached
  | .object m fs => (reachedFields_listed (m := m) fs []).congr fun _ _ _ => iff_of_true (Nat.zero_le _) trivial
  | .null | .bool _ | .int _ | .double _ | .text _ | .list .. | .tuple _ => .nil nofun
termination_by structural v => v

theorem reachedFields_listed {m : Nat} : (fs : List (String × Value)) → (done : Fields) →
    Listed (.object m (done ++ fs)) (fun s => done.length ≤ s.field) (reachedFields (.object m (done ++ fs)) fs)
  | [], done => by
    refine .nil fun s w hs hholds => ?_
    cases hholds with
    | field h | item h =>
      rw [List.append_nil, List.getElem?_eq_none hs] at h
      cases h
  | (key, v) :: rest, done => by
    have hat : (done ++ (key, v) :: rest)[done.length]? = some (key, v) := by simp
    have hslot : Listed (.object m (done ++ (key, v) :: rest)) (fun s => s.field = done.length)
        (if Syntax.metadataKeys.contains key then [] else reachedSlot (.object m (done ++ (key, v) :: rest)) v) := by
      cases hkey : Syntax.metadataKeys.contains key with
      | true =>
        refine .nil fun s w hs hholds => ?_
        rw [(hholds.at_field hat hs).1] at hkey
        cases hkey
      | false => exact reachedSlot_listed v hat hkey
    have hrest := reachedFields_listed (m := m) rest (done ++ [(key, v)])
    rw [List.append_assoc, List.length_append, List.length_singleton] at hrest
    refine (hslot.append hrest fun s s' hs hs' => .inl ?_).congr fun s _ _ => ?_
    · omega
    · omega
termination_by structural fs => fs

theorem reachedSlot_listed {m i : Nat} {fs : Fields} {key : String} : (v : Value) → fs[i]? = some (key, v) →
    Syntax.metadataKeys.contains key = false →
    Listed (.object m fs) (fun s => s.field = i) (reachedSlot (.object m fs) v)
  | .list k xs, hat, hkey => by
    refine (reachedItems_listed (m := m) hkey xs [] hat).congr fun s w hholds => ⟨And.left, fun hs => ⟨hs, ?_⟩⟩
    obtain ⟨_, hw, ⟨_, rfl⟩ | ⟨_, _, j, _, rfl, _⟩⟩ := hholds.at_field hat hs
    · cases hw
    · exact ⟨j, rfl, Nat.zero_le j⟩
  | .object k gs, hat, hkey => by
    rw [reachedSlot]
    cases hnode : (Value.object k gs).isNode with
    | false => exact listed_other hat hnode nofun
    | true =>
      have hholds : (Value.object m fs).Holds ⟨i, none⟩ (.object k gs) := .field hat hkey hnode
      have hbelow := (reachedFields_listed (m := k) gs []).congr fun _ _ _ => iff_of_true (Nat.zero_le _) trivial
      refine (Listed.single hholds (fun w' h' => hholds.unique h') hbelow).congr fun s w h => ⟨?_, fun hs => ?_⟩
      · rintro rfl
        rfl
      · obtain ⟨_, _, ⟨rfl, _⟩ | ⟨_, _, _, heq, _⟩⟩ := h.at_field hat hs
        · rfl
        · cases heq
  | .null, hat, _ | .bool _, hat, _ | .int _, hat, _ | .double _, hat, _ | .text _, hat, _ | .tuple _, hat, _ =>
    listed_other hat rfl nofun
termination_by structural v => v

theorem reachedItems_listed {m i k : Nat} {fs : Fields} {key : String}
    (hkey : Syntax.metadataKeys.contains key = false) : (xs : List Value) → (done : List Value) →
    fs[i]? = some (key, .list k (done ++ xs)) →
    Listed (.object m fs) (fun s => s.field = i ∧ ∃ j, s.item = some j ∧ done.length ≤ j)
      (reachedItems (.object m fs) xs)
  | [], done, hat => by
    refine .nil fun s w hs hholds => ?_
    obtain ⟨hi, j, hj, hle⟩ := hs
    obtain ⟨_, _, ⟨rfl, _⟩ | ⟨k', xs, j', heq, rfl, hitem⟩⟩ := hholds.at_field hat hi
    · cases hj
    · cases heq
      cases hj
      rw [List.append_nil, List.getElem?_eq_none hle] at hitem
      cases hitem
  | v :: rest, done, hat => by
    have hitem : (done ++ v :: rest)[done.length]? = some v := by simp
    have hfirst : Listed (.object m fs) (fun s => s = ⟨i, some done.length⟩)
        (if v.isNode then (.object m fs, v) :: v.reached else []) := by
      cases hnode : v.isNode with
      | true =>
        have hholds : (Value.object m fs).Holds ⟨i, some done.length⟩ v := .item hat hkey hitem hnode
        exact .single hholds (fun w' h' => hholds.unique h') (reached_listed v)
      | false =>
        refine .nil fun s w hs hholds => ?_
        subst hs
        obtain ⟨_, hw, ⟨heq, _⟩ | ⟨k', xs, j, hlist, heq, hj⟩⟩ := hholds.at_field hat rfl
        · cases heq
        · cases heq
          cases hlist
          rw [hitem] at hj
          cases hj
          rw [hnode] at hw
          cases hw
    have hlater := reachedItems_listed (m := m) hkey rest (done ++ [v]) (by rw [List.append_assoc]; exact hat)
    rw [List.length_append, List.length_singleton] at hlater
    refine (hfirst.append hlater ?_).congr fun s w hholds => ⟨?_, ?_⟩
    · rintro s s' rfl ⟨hi, j, hj, hle⟩
      exact .inr ⟨hi.symm, done.length, j, rfl, hj, hle⟩
    · rintro (rfl | ⟨hi, j, hj, hle⟩)
      · exact ⟨rfl, done.length, rfl, Nat.le_refl _⟩
      · exact ⟨hi, j, hj, by omega⟩
    · rintro ⟨hi, j, hj, hle⟩
      by_cases heq : done.length = j
      · left
        obtain ⟨field, item⟩ := s
        subst heq hi hj
        rfl
      · exact .inr ⟨hi, j, hj, by omega⟩
termination_by structural xs => xs
end

/-! ## The walk -/

mutual
/-- Marks do not count in the size. -/
theorem size_erase : (v : Value) → v.erase.size = v.size
  | .null | .bool _ | .int _ | .double _ | .text _ => rfl
  | .list m xs => by rw [erase, size, size, sizeItems_erase xs]
  | .tuple xs => by rw [erase, size, size, sizeItems_erase xs]
  | .object m fs => by rw [erase, size, size, sizeFields_erase fs]

theorem sizeItems_erase : (xs : List Value) → sizeItems (eraseItems xs) = sizeItems xs
  | [] => rfl
  | v :: rest => by rw [eraseItems, sizeItems, sizeItems, size_erase v, sizeItems_erase rest]

theorem sizeFields_erase : (fs : List (String × Value)) → sizeFields (eraseFields fs) = sizeFields fs
  | [] => rfl
  | (k, v) :: rest => by rw [eraseFields, sizeFields, sizeFields, size_erase v, sizeFields_erase rest]
end

theorem size_stamp (next : Nat) (v : Value) : (v.stamp next).1.size = v.size := by
  rw [← size_erase, erase_stamp, size_erase]

end Value

/-- Positions in order are all different. -/
theorem nodup_of_before {paths : List (List Spot)} (h : paths.Pairwise (List.Lex Spot.Before)) : paths.Nodup := by
  have hspot (s : Spot) : ¬s.Before s := by
    rintro (hlt | ⟨_, i, j, hi, hj, hlt⟩)
    · exact Nat.lt_irrefl _ hlt
    · cases hi.symm.trans hj
      exact Nat.lt_irrefl _ hlt
  refine h.imp fun hlex heq => ?_
  subst heq
  exact List.lex_irrefl hspot _ hlex

variable {σ : Type}

/-- A visitor that never does anything else keeps all nodes, and writes down each of them with its owner. -/
theorem Visitor.keeps_observed {V : Visitor σ} (hkeep : ∀ v owner m, (V.enter v owner m).1 = .ok .keep)
    (nodes : List (Value × Value)) (t : Trail (σ × List (Value × Option Value))) :
    ∃ t', V.observed.Keeps nodes t t' ∧ t'.memory.2 = t.memory.2 ++ nodes.map fun p => (p.2, some p.1) := by
  induction nodes generalizing t with
  | nil => exact ⟨t, .nil t, (List.append_nil _).symm⟩
  | cons p rest ih =>
    have hfirst : V.observed.enter p.2 (some p.1) t.memory
        = (.ok .keep, (V.enter p.2 (some p.1) t.memory.1).2, t.memory.2 ++ [(p.2, some p.1)]) := by
      rw [observed]
      dsimp only
      rw [hkeep]
    obtain ⟨t', hlater, hmemory⟩ := ih { t with memory := (_, t.memory.2 ++ [(p.2, some p.1)]) }
    refine ⟨t', .cons hfirst hlater, ?_⟩
    rw [hmemory, List.append_assoc]
    rfl

/-- The walk of a visitor that keeps everything, which writes down its questions. -/
theorem walk_of_keep {V : Visitor σ} (hkeep : ∀ v owner m, (V.enter v owner m).1 = .ok .keep) {tree : Value}
    (hobject : tree.isObject = true) (m : σ) {fuel : Nat} (hfuel : 2 * tree.size ≤ fuel) :
    let placed := (tree.stamp (tree.topMark + 1)).1
    ∃ t : Trail (σ × List (Value × Option Value)), t.revisions = [] ∧
      t.memory.2 = (placed, none) :: placed.reached.map (fun p => (p.2, some p.1)) ∧
      walk V.observed fuel tree (m, []) = .ofWalked placed false ⟨placed, false, none, t⟩ := by
  intro placed
  have hplaced : placed.isObject = true := (isObject_stamp _ tree).trans hobject
  have hsize : 2 * placed.size ≤ fuel := (size_stamp _ tree).symm ▸ hfuel
  have hroot : V.observed.enter placed none (m, [])
      = (.ok .keep, (V.enter placed none m).2, [(placed, none)]) := by
    unfold Visitor.observed
    dsimp only
    rw [hkeep]
    rfl
  obtain ⟨t, hbelow, hmemory⟩ := Visitor.keeps_observed hkeep placed.reached
    ⟨((V.enter placed none m).2, [(placed, none)]), (tree.stamp (tree.topMark + 1)).2, []⟩
  refine ⟨t, hbelow.revisions, hmemory, ?_⟩
  unfold walk
  dsimp only
  rw [Visitor.ask_of_keep hroot]
  dsimp only
  rw [Walk.children_kept placed fuel hplaced rfl hsize hbelow]

/-- The positions of a tree: the root, and those below it. -/
theorem exists_positions (tree : Value) : ∃ paths, paths.Pairwise (List.Lex Spot.Before) ∧
    (∀ path, path ∈ paths ↔ ∃ q, Position tree path q) ∧
    List.Forall₂ (Position tree) paths ((tree, none) :: tree.reached.map (fun p => (p.2, some p.1))) := by
  obtain ⟨paths, hsorted, hmem, hall⟩ := reached_listed tree
  refine ⟨[] :: paths, List.pairwise_cons.mpr ⟨?_, hsorted⟩, fun path => ?_, .cons .root ?_⟩
  · -- the root comes first, since no path to a node below it is empty
    intro path hpath
    obtain ⟨s, rest, rfl, _⟩ := (hmem path).mp hpath
    exact .nil
  · rw [List.mem_cons, hmem]
    constructor
    · rintro (rfl | ⟨s, rest, rfl, _, q, howns⟩)
      · exact ⟨_, .root⟩
      · exact ⟨_, position_iff.mpr (.inr ⟨q.1, rfl, howns⟩)⟩
    · rintro ⟨⟨w, owner⟩, hpos⟩
      rcases position_iff.mp hpos with ⟨rfl, _⟩ | ⟨o, _, howns⟩
      · exact .inl rfl
      · cases howns with
        | here h => exact .inr ⟨_, _, rfl, trivial, _, .here h⟩
        | deeper h h' => exact .inr ⟨_, _, rfl, trivial, _, .deeper h h'⟩
  · exact List.forall₂_map_right_iff.mpr (hall.imp fun path q h => position_iff.mpr (.inr ⟨q.1, rfl, h⟩))

/-- **A walk that keeps everything visits the tree.** With a visitor that always keeps the node, the walk returns and
leaves the tree as it is. The questions are about the positions of the tree: about each of them, about each once, in
their order, and with the object that holds the node there. -/
theorem walk_visits_positions (V : Visitor σ) (hkeep : ∀ v owner m, (V.enter v owner m).1 = .ok .keep) (tree : Value)
    (hobject : tree.isObject = true) (m : σ) (fuel : Nat) (hfuel : 2 * tree.size ≤ fuel) :
    let placed := (tree.stamp (tree.topMark + 1)).1
    let o := walk V fuel tree m
    placed.erase = tree.erase ∧ o.fault = none ∧ o.root = placed ∧ o.tree = placed ∧ o.replaced = false ∧
      ∃ paths, paths.Pairwise (List.Lex Spot.Before) ∧ paths.Nodup ∧
        (∀ path, path ∈ paths ↔ ∃ q, Position placed path q) ∧
        List.Forall₂ (Position placed) paths (V.questions fuel tree m) := by
  intro placed o
  obtain ⟨t, hrevisions, hmemory, hwalk⟩ := walk_of_keep hkeep hobject m hfuel
  obtain ⟨paths, hsorted, hmem, hall⟩ := exists_positions placed
  have hcurrent : t.current placed = placed := Walk.current_of_no_revisions hrevisions placed
  have ho : o = (Outcome.ofWalked placed false ⟨placed, false, none, t⟩).map Prod.fst :=
    (walk_observed V fuel tree m).trans (congrArg _ hwalk)
  have hquestions : V.questions fuel tree m = (placed, none) :: placed.reached.map (fun p => (p.2, some p.1)) := by
    rw [Visitor.questions, hwalk]
    exact hmemory
  refine ⟨erase_stamp _ tree, ?_, ?_, ?_, ?_, paths, hsorted, nodup_of_before hsorted, hmem, hquestions ▸ hall⟩
  · rw [ho]
    rfl
  · rw [ho]
    exact hcurrent
  · rw [ho]
    exact hcurrent
  · rw [ho]
    rfl

namespace Sample

/-- A visitor that keeps everything, and counts the nodes it is asked about. -/
def reader : Visitor Nat where
  enter _ _ m := (.ok .keep, m + 1)

/-- A tree with nodes in fields and lists, one of them twice, and with nodes that have no position: in a metadata field,
in an object without type, and in a list inside a list. -/
def shelf : Value :=
  .new [("type", .text "shelf"), ("loc", .new [("type", .text "place")]),
    ("books", .newList [.object 1 [("type", .text "book"), ("title", .object 2 [("type", .text "title")])],
      .new [("cover", .new [("type", .text "cover")])], .newList [.new [("type", .text "page")]],
      .object 1 [("type", .text "book"), ("title", .object 2 [("type", .text "title")])]]),
    ("owner", .new [("type", .text "name")])]

end Sample

theorem walk_visits_positions_sample :
    let placed := (Sample.shelf.stamp (Sample.shelf.topMark + 1)).1
    let o := walk Sample.reader 100 Sample.shelf 0
    let questions := Sample.reader.questions 100 Sample.shelf 0
    Sample.shelf.isObject = true ∧ 2 * Sample.shelf.size ≤ 100 ∧ o.fault = none ∧ o.root = placed ∧ o.memory = 6 ∧
      questions.length = 6 ∧
      (questions.zip ["shelf", "book", "title", "book", "title", "name"]).all (fun p => p.1.1.hasType p.2) = true ∧
      ∃ paths : List (List Spot), paths.length = 6 ∧ paths.Nodup ∧
        ∀ path, path ∈ paths ↔ ∃ q, Position placed path q := by
  intro placed o questions
  have hfuel : 2 * Sample.shelf.size ≤ 100 := by decide
  obtain ⟨_, hfault, hroot, _, _, paths, _, hnodup, hmem, hall⟩ :=
    walk_visits_positions Sample.reader (fun _ _ _ => rfl) Sample.shelf rfl 0 100 hfuel
  have hlength : questions.length = 6 := by decide +kernel
  exact ⟨rfl, hfuel, hfault, hroot, by decide +kernel, hlength, by decide +kernel, paths,
    hall.length_eq.trans hlength, hnodup, hmem⟩

end EsmLift
