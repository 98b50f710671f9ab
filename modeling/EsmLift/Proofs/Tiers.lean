import EsmLift.Proofs.Simulation
import Mathlib.Algebra.Order.Field.Basic
import Mathlib.Algebra.Order.Field.Rat

/-!
# `Proofs.Tiers` — nothing is inside itself

Objects and lists may occur at several places, and a walk puts nodes into them. So it has to be shown that none of them
ends up inside itself. Every mark gets a **height**, which is a rational number, and what an object or a list holds is
lower than itself. New nodes find their place between what they hold and what holds them, since between two heights
there is always another one; the marks in use keep theirs. So no circle can be closed, although marks are not in the
order in which they were given.

Beside its height a mark has a kind: it belongs to an object or to a list, and this does not change either.

## Contents

* `Tier`, `Value.Held`: what is inside something of a given height;
* `Held.refresh`, `Held.isObject_refresh`: values brought up to date;
* `exists_held_stamp`: new nodes find their place;
* `Trail.Tiered`, `Trail.Tiered.recordList`, `Trail.Tiered.recordObject`: edits;
* `Value.Coherent`, `Coherent.held`: where to start.
-/

namespace EsmLift

/-- What is known about a mark: how high it stands, and whether it is the mark of an object. -/
structure Tier where
  height : ℚ
  object : Bool

/-- The objects and lists in the value have marks below `next`, are lower than `bound`, and each is lower than what it
is in. -/
inductive Value.Held (T : Nat → Tier) (next : Nat) : ℚ → Value → Prop
  | leaf {bound : ℚ} {v : Value} (h : v.isCompound = false) : Held T next bound v
  | tuple {bound : ℚ} {xs : List Value} (h : ∀ x ∈ xs, Held T next bound x) : Held T next bound (.tuple xs)
  | list {bound : ℚ} {m : Nat} {xs : List Value} (hpos : 0 < m) (hlt : m < next) (hkind : (T m).object = false)
      (hlow : (T m).height < bound) (h : ∀ x ∈ xs, Held T next (T m).height x) : Held T next bound (.list m xs)
  | object {bound : ℚ} {m : Nat} {fs : Fields} (hpos : 0 < m) (hlt : m < next) (hkind : (T m).object = true)
      (hlow : (T m).height < bound) (h : ∀ f ∈ fs, Held T next (T m).height f.2) : Held T next bound (.object m fs)

/-- What is kept for a mark holds only what is lower. -/
def Revisions.Tiered (T : Nat → Tier) (next : Nat) (R : Revisions) : Prop :=
  ∀ m c, R.lookup m = some c → ∀ bound, (T m).height < bound → c.Held T next bound

namespace Value

variable {T T' : Nat → Tier} {next next' : Nat} {bound bound' : ℚ} {v c : Value} {R : Revisions}

theorem mark_leaf (h : v.isCompound = false) : v.mark = 0 := by
  cases v <;> first | rfl | cases h

namespace Held

theorem mono (h : v.Held T next bound) (hle : bound ≤ bound') : v.Held T next bound' := by
  induction h with
  | leaf h => exact .leaf h
  | tuple _ ih => exact .tuple fun x hx => ih x hx hle
  | list hpos hlt hkind hlow h => exact .list hpos hlt hkind (hlow.trans_le hle) h
  | object hpos hlt hkind hlow h => exact .object hpos hlt hkind (hlow.trans_le hle) h

/-- More marks are in use, and the old ones stay where they are. -/
theorem later (h : v.Held T next bound) (hT : ∀ k < next, T' k = T k) (hle : next ≤ next') :
    v.Held T' next' bound := by
  induction h with
  | leaf h => exact .leaf h
  | tuple _ ih => exact .tuple ih
  | list hpos hlt hkind hlow _ ih =>
    rw [← hT _ hlt] at hkind hlow ih
    exact .list hpos (hlt.trans_le hle) hkind hlow ih
  | object hpos hlt hkind hlow _ ih =>
    rw [← hT _ hlt] at hkind hlow ih
    exact .object hpos (hlt.trans_le hle) hkind hlow ih

/-- What is inside a value is held too. -/
theorem of_mem (h : v.Held T next bound) (hc : c ∈ v.compounds) : c.Held T next bound := by
  induction h with
  | leaf h =>
    rw [compounds_leaf h] at hc
    exact absurd hc List.not_mem_nil
  | tuple h ih =>
    rcases mem_compounds_tuple.mp hc with rfl | ⟨x, hx, hc⟩
    · exact .tuple h
    · exact ih x hx hc
  | list hpos hlt hkind hlow h ih =>
    rcases mem_compounds_list.mp hc with rfl | ⟨x, hx, hc⟩
    · exact .list hpos hlt hkind hlow h
    · exact (ih x hx hc).mono hlow.le
  | object hpos hlt hkind hlow h ih =>
    rcases mem_compounds_object.mp hc with rfl | ⟨f, hf, hc⟩
    · exact .object hpos hlt hkind hlow h
    · exact (ih f hf hc).mono hlow.le

/-- Every object and list has a mark. -/
theorem placed (h : v.Held T next bound) : v.Placed := by
  induction h with
  | leaf h =>
    intro c hc
    rw [compounds_leaf h] at hc
    exact absurd hc List.not_mem_nil
  | tuple _ ih => exact placed_tuple.mpr ih
  | list hpos _ _ _ _ ih => exact placed_list.mpr ⟨hpos, ih⟩
  | object hpos _ _ _ _ ih => exact placed_object.mpr ⟨hpos, ih⟩

/-- **What is inside something is not the thing itself.** -/
theorem not_mem {m : Nat} (h : v.Held T next (T m).height) (hm : 0 < m) : m ∉ v.marks := by
  intro hmem
  obtain ⟨c, hc, rfl⟩ := List.mem_map.mp hmem
  cases h.of_mem hc with
  | leaf h =>
    rw [mark_leaf h] at hm
    exact absurd hm (Nat.lt_irrefl 0)
  | tuple _ => exact absurd hm (Nat.lt_irrefl 0)
  | list _ _ _ hlow | object _ _ _ hlow => exact absurd hlow (lt_irrefl _)

/-- A value that is brought up to date is held where it was. -/
theorem refresh (h : v.Held T next bound) (hR : R.Tiered T next) : (v.refresh R).Held T next bound := by
  induction h with
  | leaf h =>
    rw [refresh_leaf h]
    exact .leaf h
  | tuple _ ih =>
    rw [Value.refresh, refreshItems_eq_map]
    exact .tuple (List.forall_mem_map.mpr ih)
  | @list bound m xs hpos hlt hkind hlow _ ih =>
    rw [Value.refresh, refreshItems_eq_map]
    cases hl : R.lookup m with
    | some c => exact hR m c hl bound hlow
    | none => exact .list hpos hlt hkind hlow (List.forall_mem_map.mpr ih)
  | @object bound m fs hpos hlt hkind hlow _ ih =>
    rw [Value.refresh, refreshFields_eq_map]
    cases hl : R.lookup m with
    | some c => exact hR m c hl bound hlow
    | none => exact .object hpos hlt hkind hlow (List.forall_mem_map.mpr ih)

/-- An object stays an object. -/
theorem isObject_refresh (h : v.Held T next bound) (hR : R.Tiered T next) (hclosed : R.Closed)
    (hv : v.isObject = true) : (v.refresh R).isObject = true := by
  cases v with
  | object m fs =>
    cases h with
    | leaf h => cases h
    | object hpos _ hkind hlow _ =>
      rw [Value.refresh]
      cases hl : R.lookup m with
      | none => rfl
      | some c =>
        obtain ⟨_, hmark, _⟩ := hclosed m c hl
        cases hR m c hl bound hlow with
        | object => rfl
        | list _ _ hlist =>
          obtain rfl := hmark
          cases hkind.symm.trans hlist
        | tuple _ => exact absurd hmark (Nat.ne_of_lt hpos)
        | leaf hleaf => exact absurd ((mark_leaf hleaf).symm.trans hmark) (Nat.ne_of_lt hpos)
  | _ => cases hv

end Held

/-! ## New nodes -/

/-- There is room above values that are held. -/
theorem exists_room (xs : List Value) (h : ∀ x ∈ xs, ∃ low < bound, x.Held T next low) :
    ∃ low < bound, ∀ x ∈ xs, x.Held T next low := by
  induction xs with
  | nil => exact ⟨bound - 1, sub_one_lt bound, nofun⟩
  | cons x rest ih =>
    obtain ⟨hx, hrest⟩ := List.forall_mem_cons.mp h
    obtain ⟨low, hlow, hx⟩ := hx
    obtain ⟨low', hlow', hrest⟩ := ih hrest
    refine ⟨max low low', max_lt hlow hlow', List.forall_mem_cons.mpr ⟨hx.mono (le_max_left ..), fun y hy => ?_⟩⟩
    exact (hrest y hy).mono (le_max_right ..)

theorem Held.exists_low (h : v.Held T next bound) : ∃ low < bound, v.Held T next low := by
  induction h with
  | @leaf bound v h => exact ⟨bound - 1, sub_one_lt bound, .leaf h⟩
  | tuple _ ih =>
    obtain ⟨low, hlow, h⟩ := exists_room _ ih
    exact ⟨low, hlow, .tuple h⟩
  | list hpos hlt hkind hlow h =>
    obtain ⟨low, hm, hlow⟩ := exists_between hlow
    exact ⟨low, hlow, .list hpos hlt hkind hm h⟩
  | object hpos hlt hkind hlow h =>
    obtain ⟨low, hm, hlow⟩ := exists_between hlow
    exact ⟨low, hlow, .object hpos hlt hkind hm h⟩

/-- A new mark gets a height between two others, and the marks below it keep theirs. -/
theorem exists_tier {low bound : ℚ} (hlow : low < bound) (T : Nat → Tier) (next : Nat) (object : Bool) :
    ∃ (T' : Nat → Tier) (height : ℚ), low < height ∧ height < bound ∧ T' next = ⟨height, object⟩ ∧
      ∀ k < next, T' k = T k := by
  obtain ⟨height, hheight, hbound⟩ := exists_between hlow
  exact ⟨Function.update T next ⟨height, object⟩, height, hheight, hbound, Function.update_self ..,
    fun _ hk => Function.update_of_ne (Nat.ne_of_lt hk) ..⟩

-- A new object or list gets a place between the old ones that may be in it and what it is put into, before its parts
-- get theirs. Old objects and lists stay as they are.
mutual
/-- **New nodes find their place** above the old objects and lists that are in them. -/
theorem exists_held_stamp {low bound : ℚ} (hlow : low < bound) {T : Nat → Tier} {next : Nat} (hnext : 0 < next) :
    (v : Value) → (∀ c ∈ v.compounds, c.mark = 0 ∨ c.Held T next low) →
      ∃ T', (∀ k < next, T' k = T k) ∧ (v.stamp next).1.Held T' (v.stamp next).2 bound
  | .null, _ | .bool _, _ | .int _, _ | .double _, _ | .text _, _ => ⟨T, fun _ _ => rfl, .leaf rfl⟩
  | .tuple xs, h => by
    obtain ⟨T', hT, hxs⟩ := exists_held_stampItems hlow hnext xs fun c hc => h c (List.mem_cons_of_mem _ hc)
    exact ⟨T', hT, .tuple hxs⟩
  | .list m xs, h => by
    by_cases hm : m = 0
    · obtain ⟨T₁, height, hheight, hbound, hself, hother⟩ := exists_tier hlow T next false
      obtain ⟨T', hT, hxs⟩ := exists_held_stampItems hheight (Nat.succ_pos next) xs fun c hc =>
        (h c (List.mem_cons_of_mem _ hc)).imp id fun hc => hc.later hother (Nat.le_succ next)
      have hown : T' next = ⟨height, false⟩ := (hT next (Nat.lt_succ_self next)).trans hself
      refine ⟨T', fun k hk => (hT k (Nat.lt_succ_of_lt hk)).trans (hother k hk), ?_⟩
      simp only [stamp, if_pos hm]
      refine .list hnext (count_marks_stampItems Nat.one_pos (next + 1) xs).1 ?_ ?_ ?_ <;> rw [hown]
      · exact hbound
      · exact hxs
    · have hheld := (h _ List.mem_cons_self).resolve_left hm
      rw [stamp_of_placed next _ hheld.placed]
      exact ⟨T, fun _ _ => rfl, hheld.mono hlow.le⟩
  | .object m fs, h => by
    by_cases hm : m = 0
    · obtain ⟨T₁, height, hheight, hbound, hself, hother⟩ := exists_tier hlow T next true
      obtain ⟨T', hT, hfs⟩ := exists_held_stampFields hheight (Nat.succ_pos next) fs fun c hc =>
        (h c (List.mem_cons_of_mem _ hc)).imp id fun hc => hc.later hother (Nat.le_succ next)
      have hown : T' next = ⟨height, true⟩ := (hT next (Nat.lt_succ_self next)).trans hself
      refine ⟨T', fun k hk => (hT k (Nat.lt_succ_of_lt hk)).trans (hother k hk), ?_⟩
      simp only [stamp, if_pos hm]
      refine .object hnext (count_marks_stampFields Nat.one_pos (next + 1) fs).1 ?_ ?_ ?_ <;> rw [hown]
      · exact hbound
      · exact hfs
    · have hheld := (h _ List.mem_cons_self).resolve_left hm
      rw [stamp_of_placed next _ hheld.placed]
      exact ⟨T, fun _ _ => rfl, hheld.mono hlow.le⟩

theorem exists_held_stampItems {low bound : ℚ} (hlow : low < bound) {T : Nat → Tier} {next : Nat} (hnext : 0 < next) :
    (xs : List Value) → (∀ c ∈ compoundsItems xs, c.mark = 0 ∨ c.Held T next low) →
      ∃ T', (∀ k < next, T' k = T k) ∧ ∀ x ∈ (stampItems next xs).1, x.Held T' (stampItems next xs).2 bound
  | [], _ => ⟨T, fun _ _ => rfl, nofun⟩
  | v :: rest, h => by
    obtain ⟨hv, hrest⟩ := List.forall_mem_append.mp h
    have hle := (count_marks_stamp Nat.one_pos next v).1
    obtain ⟨T₁, hT₁, hv⟩ := exists_held_stamp hlow hnext v hv
    obtain ⟨T₂, hT₂, hrest⟩ := exists_held_stampItems hlow (hnext.trans_le hle) rest fun c hc =>
      (hrest c hc).imp id fun hc => hc.later hT₁ hle
    refine ⟨T₂, fun k hk => (hT₂ k (hk.trans_le hle)).trans (hT₁ k hk), List.forall_mem_cons.mpr ⟨?_, hrest⟩⟩
    exact hv.later hT₂ (count_marks_stampItems Nat.one_pos _ rest).1

theorem exists_held_stampFields {low bound : ℚ} (hlow : low < bound) {T : Nat → Tier} {next : Nat} (hnext : 0 < next) :
    (fs : List (String × Value)) → (∀ c ∈ compoundsFields fs, c.mark = 0 ∨ c.Held T next low) →
      ∃ T', (∀ k < next, T' k = T k) ∧ ∀ f ∈ (stampFields next fs).1, f.2.Held T' (stampFields next fs).2 bound
  | [], _ => ⟨T, fun _ _ => rfl, nofun⟩
  | (key, v) :: rest, h => by
    obtain ⟨hv, hrest⟩ := List.forall_mem_append.mp h
    have hle := (count_marks_stamp Nat.one_pos next v).1
    obtain ⟨T₁, hT₁, hv⟩ := exists_held_stamp hlow hnext v hv
    obtain ⟨T₂, hT₂, hrest⟩ := exists_held_stampFields hlow (hnext.trans_le hle) rest fun c hc =>
      (hrest c hc).imp id fun hc => hc.later hT₁ hle
    refine ⟨T₂, fun k hk => (hT₂ k (hk.trans_le hle)).trans (hT₁ k hk), List.forall_mem_cons.mpr ⟨?_, hrest⟩⟩
    exact hv.later hT₂ (count_marks_stampFields Nat.one_pos _ rest).1
end

end Value

/-! ## Edits -/

variable {σ : Type} {T T' : Nat → Tier}

/-- The trail is sound, and no state that it keeps closes a circle. -/
structure Trail.Tiered (t : Trail σ) (T : Nat → Tier) : Prop where
  sound : t.Sound
  states : t.revisions.Tiered T t.next

namespace Trail.Tiered

variable {t t' : Trail σ} {m : Nat}

/-- More marks are in use. -/
theorem later (h : t.Tiered T) (hT : ∀ k < t.next, T' k = T k) (hrev : t'.revisions = t.revisions)
    (hle : t.next ≤ t'.next) : t'.Tiered T' where
  sound := h.sound.later hrev hle
  states k c hl bound hbound := by
    rw [hrev] at hl
    have hlt : k < t.next := by
      by_contra hnot
      rw [h.sound.fresh k (Nat.le_of_not_lt hnot)] at hl
      cases hl
    rw [hT k hlt] at hbound
    exact (h.states k c hl bound hbound).later hT hle

/-- A new state for a mark, which holds only what is lower. -/
theorem record {c : Value} (h : t.Tiered T) (hlt : m < t.next)
    (hc : ∀ bound, (T m).height < bound → c.Held T t.next bound) (hclosed : (t.revisions.record m c).Closed) :
    Trail.Tiered { t with revisions := t.revisions.record m c } T where
  sound := by
    refine ⟨h.sound.pos, hclosed, fun k hk => ?_⟩
    have hne : k ≠ m := by
      rintro rfl
      exact absurd hlt (Nat.not_lt.mpr hk)
    exact (Revisions.lookup_record_ne _ c hne).trans (by rw [h.sound.fresh k hk]; rfl)
  states k d hl bound hbound := by
    by_cases hkm : k = m
    · subst hkm
      rw [Revisions.lookup_record_self] at hl
      cases hl
      exact hc bound hbound
    · rw [Revisions.lookup_record_ne _ c hkm] at hl
      obtain ⟨e, he, rfl⟩ := Option.map_eq_some_iff.mp hl
      refine (h.states k e he bound hbound).refresh fun j d hd => ?_
      rw [List.lookup_cons] at hd
      split at hd
      · cases hd
        rename_i hj
        rw [beq_iff_eq.mp hj]
        exact hc
      · cases hd

/-- A part of what is recorded for a mark, once it is up to date. -/
theorem part {x : Value} (h : t.Tiered T) (hm : 0 < m) (hx : x.Held T t.next (T m).height) (c : Value) :
    (x.refresh t.revisions).Held T t.next (T m).height ∧
      (x.refresh t.revisions).Settled (t.revisions.record m c) := by
  have hheld := hx.refresh h.states
  exact ⟨hheld, Revisions.settled_record (Value.settled_refresh h.sound.closed x) (hheld.not_mem hm)⟩

/-- New items for a list. -/
theorem recordList {xs : List Value} (h : t.Tiered T) (hm : 0 < m) (hlt : m < t.next) (hkind : (T m).object = false)
    (hxs : ∀ x ∈ xs, x.Held T t.next (T m).height) : (t.recordList m xs).Tiered T := by
  have hparts (c : Value) : ∀ y ∈ refreshItems t.revisions xs,
      y.Held T t.next (T m).height ∧ y.Settled (t.revisions.record m c) := by
    rw [refreshItems_eq_map]
    exact List.forall_mem_map.mpr fun x hx => h.part hm (hxs x hx) c
  have hself : (Value.list m (refreshItems t.revisions xs)).Settled
      (t.revisions.record m (.list m (refreshItems t.revisions xs))) :=
    Value.settled_list.mpr ⟨.inr (Revisions.lookup_record_self ..), fun y hy => (hparts _ y hy).2⟩
  refine h.record hlt (fun bound hbound => ?_) (h.sound.closed.record hm rfl hself)
  exact .list hm hlt hkind hbound fun y hy => (hparts .null y hy).1

/-- New fields for an object. -/
theorem recordObject {fs : Fields} (h : t.Tiered T) (hm : 0 < m) (hlt : m < t.next) (hkind : (T m).object = true)
    (hfs : ∀ f ∈ fs, f.2.Held T t.next (T m).height) : (t.recordObject m fs).Tiered T := by
  have hparts (c : Value) : ∀ g ∈ refreshFields t.revisions fs,
      g.2.Held T t.next (T m).height ∧ g.2.Settled (t.revisions.record m c) := by
    rw [refreshFields_eq_map]
    exact List.forall_mem_map.mpr fun f hf => h.part hm (hfs f hf) c
  have hself : (Value.object m (refreshFields t.revisions fs)).Settled
      (t.revisions.record m (.object m (refreshFields t.revisions fs))) :=
    Value.settled_object.mpr ⟨.inr (Revisions.lookup_record_self ..), fun g hg => (hparts _ g hg).2⟩
  refine h.record hlt (fun bound hbound => ?_) (h.sound.closed.record hm rfl hself)
  exact .object hm hlt hkind hbound fun g hg => (hparts .null g hg).1

end Trail.Tiered

/-! ## Where to start -/

namespace Value

/-- Occurrences of one object or list are alike. -/
def Coherent (v : Value) : Prop := ∀ c ∈ v.compounds, ∀ d ∈ v.compounds, 0 < c.mark → c.mark = d.mark → c = d

theorem size_le_items {x : Value} {xs : List Value} (h : x ∈ xs) : x.size ≤ sizeItems xs := by
  induction xs with
  | nil => exact absurd h List.not_mem_nil
  | cons y rest ih =>
    rw [sizeItems]
    rcases List.mem_cons.mp h with rfl | h
    · exact Nat.le_add_right ..
    · exact (ih h).trans (Nat.le_add_left ..)

theorem size_le_fields {f : String × Value} {fs : Fields} (h : f ∈ fs) : f.2.size ≤ sizeFields fs := by
  induction fs with
  | nil => exact absurd h List.not_mem_nil
  | cons g rest ih =>
    rw [sizeFields]
    rcases List.mem_cons.mp h with rfl | h
    · omega
    · exact (ih h).trans (Nat.le_add_left ..)

/-- The size of an object or list can be its height. -/
def tiers (v : Value) (m : Nat) : Tier :=
  match v.compounds.find? fun c => c.mark == m with
  | some c => ⟨c.size, c.isObject⟩
  | none => ⟨0, false⟩

theorem Coherent.tiers {v c : Value} (h : v.Coherent) (hc : c ∈ v.compounds) (hm : 0 < c.mark) :
    v.tiers c.mark = ⟨c.size, c.isObject⟩ := by
  unfold Value.tiers
  cases hfind : v.compounds.find? fun d => d.mark == c.mark with
  | none =>
    have hnone := List.find?_eq_none.mp hfind c hc
    simp at hnone
  | some d =>
    have hmark : d.mark = c.mark := by simpa using List.find?_some hfind
    obtain rfl := h c hc d (List.mem_of_find?_eq_some hfind) hm hmark.symm
    rfl

/-- **Where occurrences are alike, nothing is inside itself.** -/
theorem Coherent.held {v : Value} {next : Nat} (h : v.Coherent) (hplaced : v.Placed) (hnext : ∀ m ∈ v.marks, m < next)
    (w : Value) (hw : ∀ c ∈ w.compounds, c ∈ v.compounds) (bound : ℚ) (hbound : (w.size : ℚ) < bound) :
    w.Held v.tiers next bound := by
  induction w using Value.induction generalizing bound with
  | leaf w hleaf => exact .leaf hleaf
  | tuple xs ih =>
    refine .tuple fun x hx => ih x hx (fun c hc => hw c (mem_compounds_tuple.mpr (.inr ⟨x, hx, hc⟩))) bound ?_
    exact lt_of_le_of_lt (by exact_mod_cast (size_le_items hx).trans (Nat.le_add_left _ 1)) hbound
  | list m xs ih =>
    have hself := hw _ List.mem_cons_self
    have hm := hplaced _ hself rfl
    have htier : v.tiers m = ⟨(Value.list m xs).size, false⟩ := h.tiers hself hm
    refine .list hm (hnext m (List.mem_map_of_mem hself)) ?_ ?_ fun x hx => ?_ <;> rw [htier]
    · exact hbound
    · refine ih x hx (fun c hc => hw c (mem_compounds_list.mpr (.inr ⟨x, hx, hc⟩))) _ ?_
      have hlt : x.size < (Value.list m xs).size := Nat.lt_one_add_iff.mpr (size_le_items hx)
      exact Nat.cast_lt.mpr hlt
  | object m fs ih =>
    have hself := hw _ List.mem_cons_self
    have hm := hplaced _ hself rfl
    have htier : v.tiers m = ⟨(Value.object m fs).size, true⟩ := h.tiers hself hm
    refine .object hm (hnext m (List.mem_map_of_mem hself)) ?_ ?_ fun f hf => ?_ <;> rw [htier]
    · exact hbound
    · refine ih f hf (fun c hc => hw c (mem_compounds_object.mpr (.inr ⟨f, hf, hc⟩))) _ ?_
      have hlt : f.2.size < (Value.object m fs).size := Nat.lt_one_add_iff.mpr (size_le_fields hf)
      exact Nat.cast_lt.mpr hlt

/-- In a tree where nothing stands at two places, occurrences are alike. -/
theorem Unshared.coherent {tree : Value} (h : tree.Unshared) : (tree.stamp (tree.topMark + 1)).1.Coherent := by
  intro c hc d hd hm heq
  have honce : (tree.stamp (tree.topMark + 1)).1.marks.count c.mark ≤ 1 := by
    have hcount := (h.intact ()).2.once c.mark hm
    rwa [marksItems_singleton] at hcount
  exact eq_of_mark hc hd heq honce

end Value
end EsmLift
