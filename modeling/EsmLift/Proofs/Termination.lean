import EsmLift.Proofs.Budget
import EsmLift.Proofs.Reach

/-!
# `Proofs.Termination` — a walk with finitely many rewrites ends

An answer may make more work: it puts in nodes whose children are walked through, it may put the visited node below new
ones, so that its children are walked through again, and a splice at an earlier item moves the walk back. But an answer
that only keeps a node leads further down, and this ends. So a walk with finitely many other answers ends too.

The measure is a pair. First comes the number of rewrites that are left, and then the size of what is walked through, as
it is now. As long as nothing is rewritten the revisions stay the same, so what comes next has the size that it had
before. After a rewrite sizes may be anything, but they are finite, since nothing is inside itself.

## Contents

* `Walk.Task.rank`, `Walk.Task.Nearer`: the measure;
* `Walk.Task.Ends`: with enough fuel the walk through a task ends;
* `Walk.ends_of_nearer`: one step, by the rules of the walk; `Walk.ends`: every task, by induction over the measure;
* `walk_ends_within_budget`: the walk from the root; `walk_immodest`: what other answers can do.
-/

namespace EsmLift

open Value

variable {σ : Type}

/-! ## The measure -/

/-- How much there is to walk through in a value as it is now. -/
def Revisions.extent (R : Revisions) (v : Value) : Nat := 2 * (v.refresh R).size

namespace Revisions

variable {R : Revisions}

theorem extent_pos (R : Revisions) (v : Value) : 0 < R.extent v := Nat.mul_pos Nat.two_pos (size_pos _)

/-- The items of a list that is up to date. -/
theorem extent_items {xs : List Value} (h : ∀ x ∈ xs, x.Settled R) : (xs.map R.extent).sum = 2 * sizeItems xs := by
  induction xs with
  | nil => rfl
  | cons x rest ih =>
    obtain ⟨hx, hrest⟩ := List.forall_mem_cons.mp h
    rw [List.map_cons, List.sum_cons, ih hrest, extent, hx.refresh, sizeItems, Nat.mul_add]

/-- The fields of an object that is up to date. -/
theorem extent_fields {fs : Fields} (h : ∀ f ∈ fs, f.2.Settled R) :
    (fs.map fun f => R.extent f.2 + 1).sum ≤ 2 * sizeFields fs := by
  induction fs with
  | nil => exact Nat.le_refl _
  | cons f rest ih =>
    obtain ⟨hf, hrest⟩ := List.forall_mem_cons.mp h
    have hle := ih hrest
    rw [List.map_cons, List.sum_cons, extent, hf.refresh, sizeFields]
    omega

end Revisions

namespace Walk

namespace Task

/-- How much there is to walk through in a task: less in what is inside, and in what follows. -/
def rank (R : Revisions) : Task → Nat
  | .children (.object _ fs) => (fs.map fun f => R.extent f.2 + 1).sum + 1
  | .children _ => 0
  | .fields _ _ todo => (todo.map fun f => R.extent f.2 + 1).sum
  | .slot _ _ v => R.extent v
  | .items _ _ todo => (todo.map R.extent).sum
  | .each nodes => (nodes.map R.extent).sum

variable {R : Revisions}

/-- The children of a value, once it is up to date. -/
theorem rank_children_refresh (hclosed : R.Closed) (v : Value) : (children (v.refresh R)).rank R < R.extent v := by
  have hsettled := settled_refresh hclosed v
  rw [Revisions.extent]
  generalize v.refresh R = u at hsettled ⊢
  cases u with
  | object m fs =>
    have hle := Revisions.extent_fields (settled_object.mp hsettled).2
    rw [rank, Value.size]
    omega
  | _ => exact Nat.mul_pos Nat.two_pos (size_pos _)

/-- The items of a list, once it is up to date. -/
theorem rank_items_refresh (hclosed : R.Closed) {v : Value} {m : Nat} {xs : List Value} (h : v.refresh R = .list m xs)
    (owner : List Value → Value) : (items owner [] xs).rank R < R.extent v := by
  have hsettled := settled_refresh hclosed v
  rw [h] at hsettled
  rw [rank, Revisions.extent_items (settled_list.mp hsettled).2, Revisions.extent, h, Value.size]
  omega

variable {limit : Nat} {task task' : Task} {T T' : Nat → Tier} {t t' : Trail (σ × Nat)}

/-- The task `task'` at `t'` is nearer to the end of the walk than `task` at `t`: fewer rewrites are left, or no more
are left and there is less to walk through. -/
def Nearer (limit : Nat) (task' : Task) (t' : Trail (σ × Nat)) (task : Task) (t : Trail (σ × Nat)) : Prop :=
  limit - t'.memory.2 < limit - t.memory.2 ∨
    limit - t'.memory.2 = limit - t.memory.2 ∧ task'.rank t'.revisions < task.rank t.revisions

theorem Nearer.down (h : task'.rank t.revisions < task.rank t.revisions) : Nearer limit task' t task t := .inr ⟨rfl, h⟩

/-- After a rewrite. -/
theorem Nearer.spent (hlt : t.memory.2 < t'.memory.2) (hle : t'.memory.2 ≤ limit) : Nearer limit task' t' task t :=
  .inl (by omega)

/-- Further on: something was rewritten, or what comes next is as it was. -/
theorem Nearer.on (h : Carried limit T t T' t') (hrank : task'.rank t.revisions < task.rank t.revisions) :
    Nearer limit task' t' task t := by
  by_cases heq : t'.memory.2 = t.memory.2
  · exact .inr ⟨by rw [heq], by rw [h.same heq]; exact hrank⟩
  · exact .spent (Nat.lt_of_le_of_ne h.count_le (Ne.symm heq)) h.solvent.within

end Task

/-! ## One step -/

/-- What is to be walked through is held; and whoever owns it is an object that holds it. -/
def Task.Held (T : Nat → Tier) (next : Nat) (bound : ℚ) : Task → Prop
  | .children v => v.isObject = true ∧ v.Held T next bound
  | .fields _ _ todo => ∀ x ∈ todo.map Prod.snd, x.Held T next bound
  | .slot owner _ v => (∀ w, ∃ m fs key, owner w = .object m fs ∧ (key, w) ∈ fs) ∧ v.Held T next bound
  | .items owner done todo =>
    (∀ xs, ∃ m fs key k, owner xs = .object m fs ∧ (key, .list k xs) ∈ fs) ∧ ∀ x ∈ done ++ todo, x.Held T next bound
  | .each nodes => ∀ x ∈ nodes, x.isObject = true ∧ x.Held T next bound

/-- The values that a walk returns. -/
def Task.parts : (task : Task) → task.Result → List Value
  | .children _ => fun v => [v]
  | .fields .. => fun fs => fs.map Prod.snd
  | .slot .. => fun v => [v]
  | .items .. => id
  | .each _ => id

/-- With enough fuel the walk through the task, by the visitor that is held to the limit, ends in one and the same
way. -/
def Task.Ends (V : Visitor σ) (limit : Nat) (T : Nat → Tier) (t : Trail (σ × Nat)) (bound : ℚ) (task : Task) : Prop :=
  ∃ qs w, Eventually (fun n => Runs (V.rationed limit) n task t qs w) ∧ Ended limit task.parts T t bound w

/-- Whatever is nearer to the end of the walk ends. -/
def Task.NearerEnds (V : Visitor σ) (limit : Nat) (task : Task) (t : Trail (σ × Nat)) : Prop :=
  ∀ task' T' t' bound', Nearer limit task' t' task t → t'.Solvent limit T' → task'.Held T' t'.next bound' →
    task'.Ends V limit T' t' bound'

variable {V : Visitor σ} {limit : Nat} {T : Nat → Tier} {t : Trail (σ × Nat)} {bound : ℚ}

theorem children_ends {v : Value} (hless : (Task.children v).NearerEnds V limit t) (ht : t.Solvent limit T)
    (h : (Task.children v).Held T t.next bound) : (Task.children v).Ends V limit T t bound := by
  obtain ⟨hobject, hv⟩ := h
  cases v with
  | object m fs =>
    cases hv with
    | leaf hleaf => cases hleaf
    | object hpos hlt hkind hlow hfs =>
      obtain ⟨qs, w, hruns, hw⟩ := hless (.fields m [] fs) T t (T m).height (.down (Nat.lt_succ_self _)) ht
        (List.forall_mem_map.mpr hfs)
      exact ⟨qs, _, hruns.succ fun n hn => .object hn, hw.object hpos hlt hkind hlow⟩
  | _ => cases hobject

theorem fields_ends {m : Nat} {done todo : Fields} (hless : (Task.fields m done todo).NearerEnds V limit t)
    (ht : t.Solvent limit T) (h : (Task.fields m done todo).Held T t.next bound) :
    (Task.fields m done todo).Ends V limit T t bound := by
  cases todo with
  | nil => exact ⟨[], _, .of_succ fun n => .noFields, .idle ht nofun rfl rfl rfl⟩
  | cons f rest =>
    obtain ⟨key, v⟩ := f
    obtain ⟨hv, hrest⟩ := List.forall_mem_cons.mp h
    have hrank : (Task.fields m done ((key, v) :: rest)).rank t.revisions
        = t.revisions.extent v + 1 + (rest.map fun f => t.revisions.extent f.2 + 1).sum := List.sum_cons
    obtain ⟨qs, w, hruns, hw⟩ := hless (.slot (fun w => .object m (done ++ (key, w) :: rest)) key v) T t bound
      (.down (by rw [hrank, Task.rank]; omega)) ht
      ⟨fun w => ⟨m, _, key, rfl, List.mem_append_right _ List.mem_cons_self⟩, hv⟩
    cases hfault : w.fault with
    | some fault => exact ⟨qs, _, hruns.succ fun n hn => .fieldStop hn hfault, .stop rfl (hw.stopped _ hfault)⟩
    | none =>
      obtain ⟨T', hcarried, hvalue, hidle⟩ := hw.passed hfault
      obtain ⟨qs', w', hruns', hw'⟩ := hless (.fields m (done ++ [(key, w.value)]) rest) T' w.trail bound
        (.on hcarried (by rw [hrank, Task.rank]; omega)) hcarried.solvent fun x hx => hcarried.held (hrest x hx)
      refine ⟨qs ++ qs', _, (hruns.and hruns').succ fun n hn => .field hn.1 hfault hn.2,
        hw'.after hcarried rfl rfl ?_ fun heq hidle' => ?_⟩
      · exact List.forall_mem_cons.mpr ⟨.inr (hvalue _ List.mem_cons_self), fun x hx => .inl hx⟩
      · show (w.edited || w'.edited) = false
        rw [hidle heq, hidle']
        rfl

theorem each_ends {nodes : List Value} (hless : (Task.each nodes).NearerEnds V limit t) (ht : t.Solvent limit T)
    (h : (Task.each nodes).Held T t.next bound) : (Task.each nodes).Ends V limit T t bound := by
  cases nodes with
  | nil => exact ⟨[], _, .of_succ fun n => .noNodes, .idle ht nofun rfl rfl rfl⟩
  | cons v rest =>
    obtain ⟨⟨hobject, hv⟩, hrest⟩ := List.forall_mem_cons.mp h
    have hclosed := ht.tiered.sound.closed
    have hrank : (Task.each (v :: rest)).rank t.revisions
        = t.revisions.extent v + (rest.map t.revisions.extent).sum := List.sum_cons
    have hchildren := Task.rank_children_refresh hclosed v
    have hpos := t.revisions.extent_pos v
    obtain ⟨qs, w, hruns, hw⟩ := hless (.children (t.current v)) T t bound (.down (by rw [hrank, Trail.current]; omega))
      ht ⟨hv.isObject_refresh ht.tiered.states hclosed hobject, hv.refresh ht.tiered.states⟩
    cases hfault : w.fault with
    | some fault => exact ⟨qs, _, hruns.succ fun n hn => .nodeStop rfl hn hfault, .stop rfl (hw.stopped _ hfault)⟩
    | none =>
      obtain ⟨T', hcarried, hvalue, _⟩ := hw.passed hfault
      obtain ⟨qs', w', hruns', hw'⟩ := hless (.each rest) T' w.trail bound
        (.on hcarried (by rw [hrank, Task.rank]; omega)) hcarried.solvent
        fun x hx => ⟨(hrest x hx).1, hcarried.held (hrest x hx).2⟩
      refine ⟨qs ++ qs', _, (hruns.and hruns').succ fun n hn => .node rfl hn.1 hfault hn.2,
        hw'.after hcarried rfl rfl ?_ fun _ _ => rfl⟩
      exact List.forall_mem_cons.mpr ⟨.inr (hvalue _ List.mem_cons_self), fun x hx => .inl hx⟩

section Slot

variable {owner : Value → Value} {key : String} {v : Value} (hless : (Task.slot owner key v).NearerEnds V limit t)
  (ht : t.Solvent limit T) (h : (Task.slot owner key v).Held T t.next bound)
  (hkey : Syntax.metadataKeys.contains key = false)

include hless ht h hkey

/-- A list is walked through. -/
theorem slot_ends_list {m : Nat} {xs : List Value} (hcurrent : t.current v = .list m xs) :
    (Task.slot owner key v).Ends V limit T t bound := by
  obtain ⟨howner, hv⟩ := h
  have hheld : (t.current v).Held T t.next bound := hv.refresh ht.tiered.states
  rw [hcurrent] at hheld
  cases hheld with
  | leaf h => cases h
  | list hpos hlt hkind hlow hxs =>
    have howner' (ys : List Value) : ∃ k fs key j, owner (.list m ys) = .object k fs ∧ (key, .list j ys) ∈ fs := by
      obtain ⟨k, fs, key, howns, hmem⟩ := howner (.list m ys)
      exact ⟨k, fs, key, m, howns, hmem⟩
    obtain ⟨qs, w, hruns, hw⟩ := hless (.items (fun ys => owner (.list m ys)) [] xs) T t (T m).height
      (.down (Task.rank_items_refresh ht.tiered.sound.closed hcurrent _)) ht ⟨howner', hxs⟩
    exact ⟨qs, _, hruns.succ fun n hn => .slotList hkey hcurrent hn, hw.list hpos hlt hkind hlow⟩

/-- A node is kept, and its children are walked through; or a new node takes its place. -/
theorem slot_ends_node (hV : V.Modest) (hnode : (t.current v).isNode = true) :
    (Task.slot owner key v).Ends V limit T t bound := by
  have hheld : (t.current v).Held T t.next bound := h.2.refresh ht.tiered.states
  have hobject := isObject_of_isNode hnode
  cases hV.asked limit hobject (some (owner (t.current v))) t with
  | keep hask hkept =>
    have hcarried := Carried.kept ht hkept
    obtain ⟨qs, w, hruns, hw⟩ := hless (.children (t.current v)) T _ bound
      (.on hcarried (Task.rank_children_refresh ht.tiered.sound.closed v)) hcarried.solvent
      ⟨hobject, hcarried.held hheld⟩
    exact ⟨_, w, hruns.succ fun n hn => .slotKeep hkey rfl hnode hask hn,
      hw.after hcarried rfl rfl (fun _ hx => .inl hx) fun _ h => h⟩
  | node hask hx hspent =>
    obtain ⟨T', hcarried, hheld'⟩ := Carried.exists_node ht hheld hx hspent
    obtain ⟨qs, w, hruns, hw⟩ := hless (.children _) T' _ bound (.spent hspent.lt hspent.within) hcarried.solvent
      ⟨(isObject_stamp _ _).trans hx.1, hheld'⟩
    exact ⟨_, _, hruns.succ fun n hn => .slotNode hkey rfl hnode hask hn,
      hw.after hcarried rfl rfl (fun _ hx => .inl hx) fun heq _ => absurd heq (Nat.ne_of_gt hspent.lt)⟩
  | splice hask _ _ => exact ⟨_, _, .of_succ fun n => .slotSplice hkey rfl hnode hask, .stop rfl rfl⟩

end Slot

theorem slot_ends (hV : V.Modest) {owner : Value → Value} {key : String} {v : Value}
    (hless : (Task.slot owner key v).NearerEnds V limit t) (ht : t.Solvent limit T)
    (h : (Task.slot owner key v).Held T t.next bound) : (Task.slot owner key v).Ends V limit T t bound := by
  cases hkey : Syntax.metadataKeys.contains key with
  | true =>
    exact ⟨[], _, .of_succ fun n => .metadata hkey, .idle ht (List.forall_mem_singleton.mpr h.2) rfl rfl rfl⟩
  | false =>
    by_cases hlist : ∃ m xs, t.current v = .list m xs
    · obtain ⟨m, xs, hcurrent⟩ := hlist
      exact slot_ends_list hless ht h hkey hcurrent
    · cases hnode : (t.current v).isNode with
      | true => exact slot_ends_node hless ht h hkey hV hnode
      | false =>
        exact ⟨[], _, .of_succ fun n => .slotOther hkey rfl (fun m xs h => hlist ⟨m, xs, h⟩) hnode,
          .idle ht (List.forall_mem_singleton.mpr (h.2.refresh ht.tiered.states)) rfl rfl rfl⟩

/-- New statements are objects, and they still are with their marks. -/
theorem isObject_stampItems (next : Nat) {xs : List Value} (h : ∀ x ∈ xs, x.isObject = true) :
    ∀ x ∈ (stampItems next xs).1, x.isObject = true := by
  induction xs generalizing next with
  | nil => exact h
  | cons x rest ih =>
    obtain ⟨hx, hrest⟩ := List.forall_mem_cons.mp h
    exact List.forall_mem_cons.mpr ⟨(isObject_stamp next x).trans hx, ih _ hrest⟩

section Items

variable {owner : List Value → Value} {done rest : List Value} {v : Value}
  (hless : (Task.items owner done (v :: rest)).NearerEnds V limit t) (ht : t.Solvent limit T)
  (howner : ∀ xs, ∃ m fs key k, owner xs = Value.object m fs ∧ (key, .list k xs) ∈ fs)
  (hbody : ∀ x ∈ done ++ t.current v :: rest, x.Held T t.next bound)
  (hnode : v.isNode = true)

include hless howner in
/-- What follows a rewrite. -/
theorem items_ends_rest {α : Type} {T' : Nat → Tier} {t' : Trail (σ × Nat)} (hcarried : Carried limit T t T' t')
    (hlt : t.memory.2 < t'.memory.2) {parts : α → List Value} {w : Walked (σ × Nat) α}
    (hw : Ended limit parts T' t' bound w) (hnone : w.fault = none) {front back : List Value}
    (hfront : ∀ x ∈ front ++ back, x ∈ parts w.value ∨ x.Held T' t'.next bound) :
    ∃ qs later, Eventually (fun n => Runs (V.rationed limit) n (.items owner front back) w.trail qs later) ∧
      Ended limit id T t bound { later with edited := true } := by
  obtain ⟨T'', hcarried', hheld, _⟩ := hw.passed hnone
  have hall := hcarried.trans hcarried'
  have hlt' := hlt.trans_le hcarried'.count_le
  obtain ⟨qs, later, hruns, hlater⟩ := hless (.items owner front back) T'' w.trail bound
    (.spent hlt' hall.solvent.within) hall.solvent ⟨howner, fun x hx => (hfront x hx).elim (hheld x) hcarried'.held⟩
  exact ⟨qs, later, hruns, hlater.after hall rfl rfl (fun _ hx => .inl hx) fun heq _ => absurd heq (Nat.ne_of_gt hlt')⟩

include hless ht howner hbody hnode

/-- An item that is kept. -/
theorem items_ends_keep {t' : Trail (σ × Nat)} (hobject : (t.current v).isObject = true) (hkept : t.Kept t')
    (hask : (V.rationed limit).ask (t.current v) (some (owner (done ++ t.current v :: rest))) t = (.ok .keep, t')) :
    (Task.items owner done (v :: rest)).Ends V limit T t bound := by
  obtain ⟨hdone, hv, hrest⟩ := List.forall_mem_append.mp hbody |>.imp id List.forall_mem_cons.mp
  have hrank : (Task.items owner done (v :: rest)).rank t.revisions
      = t.revisions.extent v + (rest.map t.revisions.extent).sum := List.sum_cons
  have hchildren := Task.rank_children_refresh ht.tiered.sound.closed v
  have hpos := t.revisions.extent_pos v
  have hcarried := Carried.kept ht hkept
  obtain ⟨qs, w, hruns, hw⟩ := hless (.children (t.current v)) T t' bound
    (.on hcarried (by rw [hrank, Trail.current]; omega)) hcarried.solvent ⟨hobject, hcarried.held hv⟩
  cases hfault : w.fault with
  | some fault =>
    exact ⟨_, _, hruns.succ fun n hn => .itemKeepStop hnode rfl hask hn hfault, .stop rfl (hw.stopped _ hfault)⟩
  | none =>
    obtain ⟨T', hcarried', hvalue, _⟩ := hw.passed hfault
    have hall := hcarried.trans hcarried'
    have hbody' : ∀ x ∈ done ++ [w.value] ++ rest, x.Held T' w.trail.next bound := by
      simp only [List.forall_mem_append]
      exact ⟨⟨fun x hx => hall.held (hdone x hx), hvalue⟩, fun x hx => hall.held (hrest x hx)⟩
    obtain ⟨qs', later, hruns', hlater⟩ := hless (.items owner (done ++ [w.value]) rest) T' w.trail bound
      (.on hall (by rw [hrank, Task.rank]; omega)) hall.solvent ⟨howner, hbody'⟩
    exact ⟨_, _, (hruns.and hruns').succ fun n hn => .itemKeep hnode rfl hask hn.1 hfault hn.2,
      hlater.after hall rfl rfl (fun _ hx => .inl hx) fun _ h => h⟩

/-- An item that is replaced by another node. -/
theorem items_ends_node {x : Value} {t' : Trail (σ × Nat)} (hx : x.MadeOf (· ∈ (t.current v).compounds))
    (hspent : t.Spent limit (x.stamp t.next).2 t')
    (hask : (V.rationed limit).ask (t.current v) (some (owner (done ++ t.current v :: rest))) t
      = (.ok (.node (x.stamp t.next).1), t')) :
    (Task.items owner done (v :: rest)).Ends V limit T t bound := by
  obtain ⟨hdone, hv, hrest⟩ := List.forall_mem_append.mp hbody |>.imp id List.forall_mem_cons.mp
  obtain ⟨T', hcarried, hheld⟩ := Carried.exists_node ht hv hx hspent
  obtain ⟨qs, w, hruns, hw⟩ := hless (.children (x.stamp t.next).1) T' t' bound (.spent hspent.lt hspent.within)
    hcarried.solvent ⟨(isObject_stamp _ _).trans hx.1, hheld⟩
  cases hfault : w.fault with
  | some fault =>
    exact ⟨_, _, hruns.succ fun n hn => .itemNodeStop hnode rfl hask hn hfault, .stop rfl (hw.stopped _ hfault)⟩
  | none =>
    have hfront : ∀ y ∈ done ++ [w.value] ++ rest, y ∈ [w.value] ∨ y.Held T' t'.next bound := by
      simp only [List.forall_mem_append]
      exact ⟨⟨fun y hy => .inr (hcarried.held (hdone y hy)), fun y hy => .inl hy⟩,
        fun y hy => .inr (hcarried.held (hrest y hy))⟩
    obtain ⟨qs', later, hruns', hlater⟩ := items_ends_rest hless howner hcarried hspent.lt hw hfault hfront
    exact ⟨_, _, (hruns.and hruns').succ fun n hn => .itemNode hnode rfl hask hn.1 hfault hn.2, hlater⟩

/-- A splice, at whatever item. -/
theorem items_ends_splice {r : Replacement} {t' : Trail (σ × Nat)}
    (hmodest : Answer.Modest (t.current v) (some (owner (done ++ t.current v :: rest))) (.splice r))
    (hspent : t.Spent limit (stampItems (r.target.stamp t.next).2 r.nodes).2 t')
    (hask : (V.rationed limit).ask (t.current v) (some (owner (done ++ t.current v :: rest))) t
      = (.ok (.splice ⟨(r.target.stamp t.next).1, (stampItems (r.target.stamp t.next).2 r.nodes).1⟩), t')) :
    (Task.items owner done (v :: rest)).Ends V limit T t bound := by
  have hsiblings : Siblings (some (owner (done ++ t.current v :: rest))) (t.current v)
      (done ++ t.current v :: rest) := by
    obtain ⟨m, fs, key, k, howns, hmem⟩ := howner (done ++ t.current v :: rest)
    exact ⟨List.mem_append_right _ List.mem_cons_self, m, fs, key, k, congrArg some howns, hmem⟩
  cases hmodest with
  | splice hnodes htarget =>
    rcases Replacement.split_cases (stampItems (r.target.stamp t.next).2 r.nodes).1 t.next
      (htarget.imp id fun h => ⟨h.1, h.2 _ hsiblings⟩) with
      ⟨before, after, hsplit, hbefore, hafter⟩ | ⟨fault, hsplit, hfault⟩
    · have hmade : ∀ c ∈ compoundsItems r.nodes, c.mark = 0 ∨ c ∈ compoundsItems (done ++ t.current v :: rest) := by
        intro c hc
        rw [compoundsItems_eq] at hc
        obtain ⟨x, hx, hc⟩ := List.mem_flatMap.mp hc
        exact ((hnodes x hx).2 c hc).imp id fun h => h _ hsiblings
      have hle := (count_marks_stamp Nat.one_pos t.next r.target).1
      obtain ⟨T', hcarried, hheld⟩ := Carried.exists_stamp ht hbody hmade hle hspent
      have hobjects := isObject_stampItems (r.target.stamp t.next).2 fun x hx => (hnodes x hx).1
      obtain ⟨qs, w, hruns, hw⟩ := hless (.each _) T' t' bound (.spent hspent.lt hspent.within) hcarried.solvent
        fun x hx => ⟨hobjects x hx, hheld x hx⟩
      cases hfault : w.fault with
      | some fault =>
        exact ⟨_, _, hruns.succ fun n hn => .itemSpliceStop hnode rfl hask hsplit hn hfault,
          .stop rfl (hw.stopped _ hfault)⟩
      | none =>
        have hfront : ∀ y ∈ before ++ w.value ++ after, y ∈ w.value ∨ y.Held T' t'.next bound := by
          simp only [List.forall_mem_append]
          exact ⟨⟨fun x hx => .inr (hcarried.held (hbody x (hbefore x hx))), fun x hx => .inl hx⟩,
            fun x hx => .inr (hcarried.held (hbody x (hafter x hx)))⟩
        obtain ⟨qs', later, hruns', hlater⟩ := items_ends_rest hless howner hcarried hspent.lt hw hfault hfront
        exact ⟨_, _, (hruns.and hruns').succ fun n hn => .itemSplice hnode rfl hask hsplit hn.1 hfault hn.2, hlater⟩
    · exact ⟨_, _, .of_succ fun n => .itemLost hnode rfl hask hsplit, .stop rfl hfault⟩

end Items

theorem items_ends (hV : V.Modest) {owner : List Value → Value} {done todo : List Value}
    (hless : (Task.items owner done todo).NearerEnds V limit t) (ht : t.Solvent limit T)
    (h : (Task.items owner done todo).Held T t.next bound) : (Task.items owner done todo).Ends V limit T t bound := by
  obtain ⟨howner, hheld⟩ := h
  cases todo with
  | nil =>
    exact ⟨[], _, .of_succ fun n => .noItems, .idle ht (fun x hx => hheld x (List.mem_append_left _ hx)) rfl rfl rfl⟩
  | cons v rest =>
    cases hnode : v.isNode with
    | false =>
      have hpos := t.revisions.extent_pos v
      have hrank : (Task.items owner (done ++ [v]) rest).rank t.revisions
          < (Task.items owner done (v :: rest)).rank t.revisions := by
        simp only [Task.rank, List.map_cons, List.sum_cons]
        omega
      obtain ⟨qs, w, hruns, hw⟩ := hless (.items owner (done ++ [v]) rest) T t bound (.down hrank) ht
        ⟨howner, by rw [List.append_assoc]; exact hheld⟩
      exact ⟨qs, w, hruns.succ fun n hn => .itemOther hnode hn, hw⟩
    | true =>
      obtain ⟨hdone, hv, hrest⟩ := List.forall_mem_append.mp hheld |>.imp id List.forall_mem_cons.mp
      have hobject : (t.current v).isObject = true :=
        hv.isObject_refresh ht.tiered.states ht.tiered.sound.closed (isObject_of_isNode hnode)
      have hbody : ∀ x ∈ done ++ t.current v :: rest, x.Held T t.next bound :=
        List.forall_mem_append.mpr ⟨hdone, List.forall_mem_cons.mpr ⟨hv.refresh ht.tiered.states, hrest⟩⟩
      cases hV.asked limit hobject (some (owner (done ++ t.current v :: rest))) t with
      | keep hask hkept => exact items_ends_keep hless ht howner hbody hnode hobject hkept hask
      | node hask hx hspent => exact items_ends_node hless ht howner hbody hnode hx hspent hask
      | splice hask hr hspent => exact items_ends_splice hless ht howner hbody hnode hr hspent hask

/-- **One step**: a task ends if all that is nearer to the end of the walk does. -/
theorem ends_of_nearer (hV : V.Modest) (task : Task) (hless : task.NearerEnds V limit t) (ht : t.Solvent limit T)
    (h : task.Held T t.next bound) : task.Ends V limit T t bound := by
  cases task with
  | children v => exact children_ends hless ht h
  | fields m done todo => exact fields_ends hless ht h
  | slot owner key v => exact slot_ends hV hless ht h
  | items owner done todo => exact items_ends hV hless ht h
  | each nodes => exact each_ends hless ht h

/-- **Every task ends**, however many rewrites are left and however much there is to walk through. -/
theorem ends (hV : V.Modest) (task : Task) (ht : t.Solvent limit T) (h : task.Held T t.next bound) :
    task.Ends V limit T t bound := by
  induction hleft : limit - t.memory.2 using Nat.strongRecOn generalizing task T t bound with
  | ind left ihLeft =>
    induction hrank : task.rank t.revisions using Nat.strongRecOn generalizing task T t bound with
    | ind rank ihRank =>
      refine ends_of_nearer hV task (fun task' T' t' bound' hnear ht' h' => ?_) ht h
      rcases hnear with hlt | ⟨heq, hlt⟩
      · exact ihLeft _ (hleft ▸ hlt) task' ht' h' rfl
      · exact ihRank _ (hrank ▸ hlt) task' ht' h' (heq.trans hleft) rfl

end Walk

/-! ## From the root -/

/-- The walk starts with an object that is held, and with no rewrites. -/
theorem Value.Coherent.start {tree : Value} (h : (tree.stamp (tree.topMark + 1)).1.Coherent) (m : σ) (limit : Nat) :
    Trail.Solvent limit (tree.stamp (tree.topMark + 1)).1.tiers ⟨(m, 0), (tree.stamp (tree.topMark + 1)).2, []⟩ ∧
      ∃ bound, (tree.stamp (tree.topMark + 1)).1.Held (tree.stamp (tree.topMark + 1)).1.tiers
        (tree.stamp (tree.topMark + 1)).2 bound := by
  have hpos : 0 < (tree.stamp (tree.topMark + 1)).2 :=
    Nat.lt_of_lt_of_le (Nat.succ_pos _) (count_marks_stamp Nat.one_pos _ tree).1
  refine ⟨⟨⟨⟨hpos, nofun, fun _ _ => rfl⟩, nofun⟩, Nat.zero_le _⟩, (tree.stamp (tree.topMark + 1)).1.size + 1, ?_⟩
  exact h.held (placed_stamp (Nat.succ_pos _) tree) (fun k hk => lt_of_mem_stamp tree hk) _ (fun _ hc => hc) _
    (lt_add_one _)

/-- The walk of a visitor that is held to a limit. -/
theorem walk_rationed_ends {V : Visitor σ} (hmodest : V.Modest) {tree : Value} (hobject : tree.isObject = true)
    (hcoherent : (tree.stamp (tree.topMark + 1)).1.Coherent) (m : σ) (limit : Nat) :
    ∃ o, Eventually (fun fuel => walk (V.rationed limit) fuel tree (m, 0) = o) ∧
      ∀ fault, o.fault = some fault → fault.misplaced = true := by
  let placed := (tree.stamp (tree.topMark + 1)).1
  let t : Trail (σ × Nat) := ⟨(m, 0), (tree.stamp (tree.topMark + 1)).2, []⟩
  have hplaced : placed.isObject = true := (isObject_stamp _ tree).trans hobject
  obtain ⟨ht, bound, hheld⟩ : t.Solvent limit placed.tiers ∧ ∃ bound, placed.Held placed.tiers t.next bound :=
    hcoherent.start m limit
  cases hmodest.asked limit hplaced none t with
  | keep hask hkept =>
    have hcarried := Carried.kept ht hkept
    obtain ⟨qs, w, hruns, hw⟩ := Walk.ends hmodest (.children placed) hcarried.solvent ⟨hplaced, hcarried.held hheld⟩
    refine ⟨.ofWalked placed false w, hruns.imp fun n hn => ?_, hw.stopped⟩
    rw [← hn.eq_run]
    unfold walk
    dsimp only
    rw [hask]
    rfl
  | node hask hx hspent =>
    obtain ⟨T', hcarried, hheld'⟩ := Carried.exists_node ht hheld hx hspent
    obtain ⟨qs, w, hruns, hw⟩ := Walk.ends hmodest (.children _) hcarried.solvent
      ⟨(isObject_stamp _ _).trans hx.1, hheld'⟩
    refine ⟨.ofWalked placed true w, hruns.imp fun n hn => ?_, hw.stopped⟩
    rw [← hn.eq_run]
    unfold walk
    dsimp only
    rw [hask]
    rfl
  | @splice r t' hask _ _ =>
    refine ⟨.stopped placed .rootSplice t', .always fun n => ?_, ?_⟩
    · unfold walk
      dsimp only
      rw [hask]
    · rintro _ ⟨⟩
      rfl

/-- **A walk with finitely many rewrites ends.** Let the visitor be modest, and let it rewrite at most `limit` times,
with whatever fuel. Then the walk has a result, which is the same for every fuel that is large enough: it returns, or it
is stopped because statements have no place. Objects and lists may occur in the tree more than once. -/
theorem walk_ends_within_budget (V : Visitor σ) (hmodest : V.Modest) (tree : Value) (hobject : tree.isObject = true)
    (hcoherent : (tree.stamp (tree.topMark + 1)).1.Coherent) (m : σ) (limit : Nat)
    (hbudget : ∀ fuel, V.rewrites fuel tree m ≤ limit) :
    ∃ enough o, (∀ fuel, enough ≤ fuel → walk V fuel tree m = o) ∧
      ∀ fault, o.fault = some fault → fault.misplaced = true := by
  obtain ⟨o, ⟨enough, ho⟩, hfault⟩ := walk_rationed_ends hmodest hobject hcoherent m limit
  refine ⟨enough, o.map Prod.fst, fun fuel hfuel => ?_, hfault⟩
  rw [walk_rationed V (hbudget fuel), ho fuel hfuel]

namespace Sample

/-- What is made of a node: it is put into a box, where it is visited again; or it takes its own place twice; or a new
line takes the place of the first one, and all that follows is visited again; or something is to be replaced that stands
nowhere. -/
def revision (v : Value) (owner : Option Value) : Answer :=
  if v.hasType "boxed" && !(owner.getD .null).hasType "box" then
    .node (.new [("type", .text "box"), ("inside", v)])
  else if v.hasType "doubled" then .splice ⟨v, [v, v]⟩
  else if v.hasType "restart" then
    match (owner.getD .null).at "lines" with
    | .list _ (first :: _) => if first.isObject then .splice ⟨first, [.new [("type", .text "line")]]⟩ else .keep
    | _ => .keep
  else if v.hasType "lost" then .splice ⟨.new [("type", .text "nowhere")], []⟩
  else .keep

/-- A visitor that rewrites as often as its memory allows. -/
def reviser : Visitor Nat where
  enter v owner m :=
    match m with
    | 0 => (.ok .keep, 0)
    | left + 1 => (.ok (revision v owner), left + 1 - (revision v owner).weight)

/-- A page that starts with an item of the given type. The last line leads back to the one before it. -/
def page (type : String) : Value :=
  .new [("type", .text "page"), ("head", .newList [.new [("type", .text type)]]),
    ("pair", .newList [.new [("type", .text "doubled"), ("note", .new [("type", .text "boxed")])]]),
    ("lines", .newList [.new [("type", .text "line")], .new [("type", .text "restart")]])]

/-- What is at hand where a node stands in a list. -/
theorem mem_siblings {v c : Value} {owner : Option Value} (hc : c ∈ v.compounds) (xs : List Value)
    (h : Siblings owner v xs) : c ∈ compoundsItems xs := by
  rw [compoundsItems_eq]
  exact List.mem_flatMap.mpr ⟨v, h.1, hc⟩

theorem revision_modest {v : Value} (hv : v.isObject = true) (owner : Option Value) :
    (revision v owner).Modest v owner := by
  unfold revision
  split
  · refine .node ⟨rfl, fun c hc => ?_⟩
    rcases mem_compounds_object.mp hc with rfl | ⟨f, hf, hc⟩
    · exact .inl rfl
    · right
      rcases List.mem_cons.mp hf with rfl | hf
      · cases hc
      · rw [List.mem_singleton.mp hf] at hc
        exact hc
  split
  · refine .splice (fun n hn => ?_) (.inl hv)
    have hn : n = v := by simpa using hn
    subst hn
    exact ⟨hv, fun c hc => .inr (mem_siblings hc)⟩
  split
  · split
    · split
      · rename_i hfirst
        refine .splice (fun n hn => ?_) (.inl hfirst)
        rw [List.mem_singleton.mp hn]
        have hnew : ∀ k ∈ (Value.new [("type", .text "line")]).marks, k = 0 := by decide
        exact ⟨rfl, fun c hc => .inl (hnew _ (List.mem_map_of_mem hc))⟩
      · exact .keep
    · exact .keep
  split
  · exact .splice nofun (.inl rfl)
  · exact .keep

theorem reviser_modest : reviser.Modest := by
  intro v owner m hv
  cases m with
  | zero => exact ⟨_, _, rfl, .keep⟩
  | succ left => exact ⟨_, _, rfl, revision_modest hv owner⟩

/-- A visitor whose memory pays for its rewrites cannot make more of them. -/
theorem rewrites_le {V : Visitor Nat} (hpays : ∀ v owner m, ∃ answer m', V.enter v owner m = (.ok answer, m') ∧
    m' + answer.weight ≤ m) (tree : Value) (limit fuel : Nat) : V.rewrites fuel tree limit ≤ limit := by
  have hkeeps : ∀ v owner (m : Nat × Nat), m.1 + m.2 ≤ limit →
      (V.tallied.enter v owner m).2.1 + (V.tallied.enter v owner m).2.2 ≤ limit := by
    rintro v owner ⟨left, count⟩ hm
    obtain ⟨answer, left', henter, hle⟩ := hpays v owner left
    have hm : left + count ≤ limit := hm
    simp only [Visitor.tallied, henter]
    omega
  have hend := walk_keeps (P := fun m : Nat × Nat => m.1 + m.2 ≤ limit) hkeeps fuel tree (m := (limit, 0))
    (Nat.le_refl _)
  exact Nat.le_trans (Nat.le_add_left ..) hend

theorem reviser_pays (v : Value) (owner : Option Value) (m : Nat) :
    ∃ answer m', reviser.enter v owner m = (.ok answer, m') ∧ m' + answer.weight ≤ m := by
  cases m with
  | zero => exact ⟨_, _, rfl, Nat.le_refl _⟩
  | succ left =>
    have hweight : (revision v owner).weight ≤ 1 := by cases revision v owner <;> simp [Answer.weight]
    exact ⟨_, _, rfl, by omega⟩

end Sample

theorem walk_ends_within_budget_sample :
    Sample.reviser.Modest ∧ (Sample.page "plain").isObject = true ∧
      (∀ fuel, Sample.reviser.rewrites fuel (Sample.page "plain") 6 ≤ 6) ∧
      Sample.reviser.rewrites 50 (Sample.page "plain") 6 = 6 ∧
      (walk Sample.reviser 50 (Sample.page "plain") 6).fault = none ∧
      (walk Sample.reviser 50 (Sample.page "lost") 6).fault = some (.notInBody "nowhere") ∧
      ∃ enough o, (∀ fuel, enough ≤ fuel → walk Sample.reviser fuel (Sample.page "plain") 6 = o) ∧
        ∀ fault, o.fault = some fault → fault.misplaced = true := by
  have hunshared : (Sample.page "plain").Unshared := by
    have hnone : ∀ k ∈ (Sample.page "plain").marks, k = 0 := by decide
    intro k hk
    rw [List.count_eq_zero.mpr fun hmem => Nat.ne_of_gt hk (hnone k hmem)]
    exact Nat.zero_le 1
  have hbudget := Sample.rewrites_le Sample.reviser_pays (Sample.page "plain") 6
  have hends := walk_ends_within_budget Sample.reviser Sample.reviser_modest (Sample.page "plain") rfl
    hunshared.coherent 6 6 hbudget
  exact ⟨Sample.reviser_modest, rfl, hbudget, by decide +kernel, by decide +kernel, by decide +kernel, hends⟩

/-! ## Immodest answers -/

/-- A walk through an object that is found again in its own first field does not end, if all that is met is kept. -/
theorem Walk.Runs.circle {V : Visitor σ} {t : Trail σ} (hkeep : ∀ v owner, V.ask v owner t = (.ok .keep, t))
    {mark k : Nat} {key : String} {v x : Value} {rest : Fields} {xs : List Value}
    (hkey : Syntax.metadataKeys.contains key = false) (hlist : t.current v = .list k (x :: xs))
    (hnode : x.isNode = true) (hx : t.current x = .object mark ((key, v) :: rest)) :
    (n : Nat) → ∃ qs w, Runs V n (.children (.object mark ((key, v) :: rest))) t qs w ∧ w.fault = some .exhausted
  | 0 => ⟨_, _, .exhausted, rfl⟩
  | 1 => ⟨_, _, .object .exhausted, rfl⟩
  | 2 => ⟨_, _, .object (.fieldStop .exhausted rfl), rfl⟩
  | 3 => ⟨_, _, .object (.fieldStop (.slotList hkey hlist .exhausted) rfl), rfl⟩
  | n + 4 => by
    obtain ⟨qs, w, hruns, hfault⟩ := circle hkeep hkey hlist hnode hx n
    exact ⟨_, _, .object (.fieldStop (.slotList hkey hlist (.itemKeepStop hnode hx (hkeep ..) hruns hfault)) rfl), rfl⟩

namespace Sample

/-- A visitor that once wants a name replaced where there are no names. -/
def misled : Visitor Nat where
  enter v owner m :=
    match m, (owner.getD .null).at "names" with
    | 1, .list _ [name] => if v.hasType "lost" then (.ok (.splice ⟨name, []⟩), 0) else (.ok .keep, 1)
    | m, _ => (.ok .keep, m)

/-- A page with one name, which is a list. -/
def named : Value :=
  .new [("type", .text "page"), ("names", .newList [.newList [.text "note"]]),
    ("body", .newList [.new [("type", .text "lost")]])]

theorem misled_pays (v : Value) (owner : Option Value) (m : Nat) :
    ∃ answer m', misled.enter v owner m = (.ok answer, m') ∧ m' + answer.weight ≤ m := by
  unfold misled
  dsimp only
  split
  · split
    · exact ⟨_, _, rfl, Nat.le_refl _⟩
    · exact ⟨_, _, rfl, Nat.le_refl _⟩
  · exact ⟨_, _, rfl, Nat.le_refl _⟩

/-- A visitor that puts the owner of a node in its place, once at a knot and then once at a bend. -/
def tangler : Visitor Nat where
  enter v owner m :=
    match m with
    | 0 => (.ok .keep, 0)
    | left + 1 =>
      if v.hasType (if left = 1 then "knot" else "bend") then (.ok (.splice ⟨v, [owner.getD .null]⟩), left)
      else (.ok .keep, left + 1)

/-- The second half of a rope. -/
def bend : Value := .list 4 [.object 5 [("type", .text "bend")]]

/-- A rope with a given first half. -/
def ropeWith (half : Value) : Value := .object 1 [("first", half), ("second", bend), ("type", .text "rope")]

/-- A rope with a knot and a bend. -/
def rope : Value := ropeWith (.list 2 [.object 3 [("type", .text "knot")]])

theorem tangler_pays (v : Value) (owner : Option Value) (m : Nat) :
    ∃ answer m', tangler.enter v owner m = (.ok answer, m') ∧ m' + answer.weight ≤ m := by
  cases m with
  | zero => exact ⟨_, _, rfl, Nat.le_refl _⟩
  | succ left =>
    unfold tangler
    dsimp only
    generalize v.hasType (if left = 1 then "knot" else "bend") = answers
    cases answers
    · exact ⟨_, _, rfl, Nat.le_refl _⟩
    · exact ⟨_, _, rfl, Nat.le_refl _⟩

theorem tangler_keeps {t : Trail Nat} (h : t.memory = 0) (v : Value) (owner : Option Value) :
    tangler.ask v owner t = (.ok .keep, t) := by
  obtain ⟨memory, next, revisions⟩ := t
  obtain rfl : memory = 0 := h
  rfl

/-- The walk through the first half of the rope, where both answers are given. -/
def tangle : Walk.Task := .slot ropeWith "first" (.list 2 [.object 3 [("type", .text "knot")]])

/-- Then the rope is found in its second half, and again and again in its first. -/
theorem tangled : ∃ x y half rest,
    (tangle.run tangler 20 ⟨2, 6, []⟩).trail.current bend = .list 4 [x] ∧ x.isNode = true ∧
    (tangle.run tangler 20 ⟨2, 6, []⟩).trail.current x = .object 1 (("first", half) :: rest) ∧
    (tangle.run tangler 20 ⟨2, 6, []⟩).trail.current half = .list 2 [y] ∧ y.isNode = true ∧
    (tangle.run tangler 20 ⟨2, 6, []⟩).trail.current y = .object 1 (("first", half) :: rest) :=
  ⟨_, _, _, _, rfl, rfl, rfl, rfl, rfl, rfl⟩

theorem rope_exhausted (n : Nat) :
    ∃ qs w, Walk.Runs tangler (n + 22) (.children rope) ⟨2, 6, []⟩ qs w ∧ w.fault = some .exhausted := by
  obtain ⟨qs, hfirst⟩ := Walk.Task.runs tangler (n + 20) tangle ⟨2, 6, []⟩
  rw [Walk.run_eq_of_le tangle (Nat.le_add_left 20 n) (by decide +kernel)] at hfirst
  have hkeeps := tangler_keeps (t := (tangle.run tangler 20 ⟨2, 6, []⟩).trail) (by decide +kernel)
  obtain ⟨x, y, half, rest, hbend, hx, hrope, hhalf, hy, hagain⟩ := tangled
  obtain ⟨qs', w, hcircle, hfault⟩ := Walk.Runs.circle hkeeps (by decide) hhalf hy hagain (n + 17)
  exact ⟨_, _, .object (.field hfirst (by decide +kernel)
    (.fieldStop (.slotList (by decide) hbend (.itemKeepStop hx hrope (hkeeps ..) hcircle hfault)) rfl)), rfl⟩

end Sample

/-- **What immodest answers can do.** Something that is no object is to be replaced, and is not in the list: then the
walk is stopped by another fault, since what is no object has no type. And with two nodes replaced by their owner, which
is in the tree already, the rope is inside itself and the walk does not end. -/
theorem walk_immodest :
    ((∀ fuel, Sample.misled.rewrites fuel Sample.named 1 ≤ 1) ∧
      ∀ fuel, (walk Sample.misled (fuel + 8) Sample.named 1).fault = some .notObject) ∧
    (∀ fuel, Sample.tangler.rewrites fuel Sample.rope 2 ≤ 2) ∧
      ∀ fuel, (walk Sample.tangler fuel Sample.rope 2).fault = some .exhausted := by
  refine ⟨⟨Sample.rewrites_le Sample.misled_pays _ 1, fun _ => rfl⟩, Sample.rewrites_le Sample.tangler_pays _ 2,
    fun fuel => ?_⟩
  by_contra hne
  have hends : (Walk.children Sample.tangler fuel Sample.rope ⟨2, 6, []⟩).fault ≠ some .exhausted := hne
  obtain ⟨qs, w, hruns, hfault⟩ := Sample.rope_exhausted fuel
  have hsame := Walk.run_eq_of_le (.children Sample.rope) (Nat.le_add_right fuel 22) hends
  rw [← hruns.eq_run, hsame] at hfault
  exact hends hfault

end EsmLift
