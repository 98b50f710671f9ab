import EsmLift.Proofs.Interruption
import EsmLift.Proofs.Recursion

/-!
# `Proofs.Placement` — a walk through values that share nothing

If no object and no list stands at two places, an edit is seen at one place only. A part that the walk has not reached
is **intact**: its objects and lists have marks, each of them once, and none was edited. The walk through such a part
edits marks of the part and new ones, and leaves nothing behind that is out of date (`Passed`). So whatever comes next
is still intact, and whatever was left before is still up to date, for any visitor that uses no object twice.

## Contents

* `Value.Placed`: everything has a mark; `Value.placed_stamp`, `Value.stamp_of_placed`, `Value.le_topMark`,
  `Value.mem_or_given`, `Value.lt_of_mem_stamp`;
* `Trail.Intact`: values that the walk has not reached;
* `Passed`, `Passed.append`, `Passed.rebase`, `Passed.list`, `Passed.object`: what the walk leaves behind.
-/

namespace EsmLift

open Value

/-! ## Marks for everything -/

namespace Value

/-- Every object and list in the value has a mark. -/
def Placed (v : Value) : Prop := ∀ c ∈ v.compounds, c.isTuple = false → 0 < c.mark

theorem placed_list {m : Nat} {xs : List Value} : (list m xs).Placed ↔ 0 < m ∧ ∀ x ∈ xs, x.Placed := by
  simp only [Placed, mem_compounds_list]
  constructor
  · intro h
    exact ⟨h _ (.inl rfl) rfl, fun x hx c hc => h c (.inr ⟨x, hx, hc⟩)⟩
  · rintro ⟨hm, hxs⟩ c (rfl | ⟨x, hx, hc⟩)
    · exact fun _ => hm
    · exact hxs x hx c hc

theorem placed_tuple {xs : List Value} : (tuple xs).Placed ↔ ∀ x ∈ xs, x.Placed := by
  simp only [Placed, mem_compounds_tuple]
  constructor
  · intro h x hx c hc
    exact h c (.inr ⟨x, hx, hc⟩)
  · rintro hxs c (rfl | ⟨x, hx, hc⟩)
    · exact fun h => by cases h
    · exact hxs x hx c hc

theorem placed_object {m : Nat} {fs : Fields} : (object m fs).Placed ↔ 0 < m ∧ ∀ f ∈ fs, f.2.Placed := by
  simp only [Placed, mem_compounds_object]
  constructor
  · intro h
    exact ⟨h _ (.inl rfl) rfl, fun f hf c hc => h c (.inr ⟨f, hf, hc⟩)⟩
  · rintro ⟨hm, hfs⟩ c (rfl | ⟨f, hf, hc⟩)
    · exact fun _ => hm
    · exact hfs f hf c hc

/-- A node has a mark. -/
theorem Placed.mark_pos {v : Value} (h : v.Placed) (hn : v.isNode = true) : 0 < v.mark := by
  cases v with
  | object m fs => exact (placed_object.mp h).1
  | _ => cases hn

mutual
/-- Stamping gives a mark to everything. -/
theorem placed_stamp {next : Nat} (h : 0 < next) : (v : Value) → (v.stamp next).1.Placed
  | .null | .bool _ | .int _ | .double _ | .text _ => fun _ hc => absurd hc List.not_mem_nil
  | .tuple xs => placed_tuple.mpr (placed_stampItems h xs)
  | .list m xs => by
    by_cases hm : m = 0
    · simp only [stamp, if_pos hm]
      exact placed_list.mpr ⟨h, placed_stampItems (Nat.succ_pos next) xs⟩
    · simp only [stamp, if_neg hm]
      exact placed_list.mpr ⟨Nat.pos_of_ne_zero hm, placed_stampItems h xs⟩
  | .object m fs => by
    by_cases hm : m = 0
    · simp only [stamp, if_pos hm]
      exact placed_object.mpr ⟨h, placed_stampFields (Nat.succ_pos next) fs⟩
    · simp only [stamp, if_neg hm]
      exact placed_object.mpr ⟨Nat.pos_of_ne_zero hm, placed_stampFields h fs⟩

theorem placed_stampItems {next : Nat} (h : 0 < next) : (xs : List Value) → ∀ x ∈ (stampItems next xs).1, x.Placed
  | [] => fun _ hx => absurd hx List.not_mem_nil
  | v :: rest => by
    have hle := (count_marks_stamp Nat.one_pos next v).1
    exact List.forall_mem_cons.mpr ⟨placed_stamp h v, placed_stampItems (Nat.lt_of_lt_of_le h hle) rest⟩

theorem placed_stampFields {next : Nat} (h : 0 < next) :
    (fs : List (String × Value)) → ∀ f ∈ (stampFields next fs).1, f.2.Placed
  | [] => fun _ hf => absurd hf List.not_mem_nil
  | (k, v) :: rest => by
    have hle := (count_marks_stamp Nat.one_pos next v).1
    exact List.forall_mem_cons.mpr ⟨placed_stamp h v, placed_stampFields (Nat.lt_of_lt_of_le h hle) rest⟩
end

mutual
/-- Stamping leaves a value as it is if everything in it has a mark. -/
theorem stamp_of_placed (next : Nat) : (v : Value) → v.Placed → v.stamp next = (v, next)
  | .null, _ | .bool _, _ | .int _, _ | .double _, _ | .text _, _ => rfl
  | .tuple xs, h => by simp only [stamp, stampItems_of_placed next xs (placed_tuple.mp h)]
  | .list m xs, h => by
    obtain ⟨hm, hxs⟩ := placed_list.mp h
    simp only [stamp, if_neg (Nat.ne_of_gt hm), stampItems_of_placed next xs hxs]
  | .object m fs, h => by
    obtain ⟨hm, hfs⟩ := placed_object.mp h
    simp only [stamp, if_neg (Nat.ne_of_gt hm), stampFields_of_placed next fs hfs]

theorem stampItems_of_placed (next : Nat) :
    (xs : List Value) → (∀ x ∈ xs, x.Placed) → stampItems next xs = (xs, next)
  | [], _ => rfl
  | v :: rest, h => by
    obtain ⟨hv, hrest⟩ := List.forall_mem_cons.mp h
    simp only [stampItems, stamp_of_placed next v hv, stampItems_of_placed next rest hrest]

theorem stampFields_of_placed (next : Nat) :
    (fs : List (String × Value)) → (∀ f ∈ fs, f.2.Placed) → stampFields next fs = (fs, next)
  | [], _ => rfl
  | (k, v) :: rest, h => by
    obtain ⟨hv, hrest⟩ := List.forall_mem_cons.mp h
    simp only [stampFields, stamp_of_placed next v hv, stampFields_of_placed next rest hrest]
end

mutual
/-- No mark in a value is above its top. -/
theorem le_topMark {k : Nat} : (v : Value) → k ∈ v.marks → k ≤ v.topMark
  | .null, h | .bool _, h | .int _, h | .double _, h | .text _, h => absurd h List.not_mem_nil
  | .tuple xs, h => by
    rcases List.mem_cons.mp (marks_tuple xs ▸ h) with rfl | h
    · exact Nat.zero_le _
    · exact le_topMarkItems xs h
  | .list m xs, h => by
    rw [topMark]
    rcases List.mem_cons.mp (marks_list m xs ▸ h) with rfl | h
    · exact Nat.le_max_left ..
    · exact Nat.le_trans (le_topMarkItems xs h) (Nat.le_max_right ..)
  | .object m fs, h => by
    rw [topMark]
    rcases List.mem_cons.mp (marks_object m fs ▸ h) with rfl | h
    · exact Nat.le_max_left ..
    · exact Nat.le_trans (le_topMarkFields fs h) (Nat.le_max_right ..)

theorem le_topMarkItems {k : Nat} : (xs : List Value) → k ∈ marksItems xs → k ≤ topMarkItems xs
  | [], h => absurd h List.not_mem_nil
  | v :: rest, h => by
    rw [topMarkItems]
    rcases List.mem_append.mp (marksItems_cons v rest ▸ h) with h | h
    · exact Nat.le_trans (le_topMark v h) (Nat.le_max_left ..)
    · exact Nat.le_trans (le_topMarkItems rest h) (Nat.le_max_right ..)

theorem le_topMarkFields {k : Nat} : (fs : List (String × Value)) → k ∈ marksFields fs → k ≤ topMarkFields fs
  | [], h => absurd h List.not_mem_nil
  | (key, v) :: rest, h => by
    rw [topMarkFields]
    rcases List.mem_append.mp (marksFields_cons (key, v) rest ▸ h) with h | h
    · exact Nat.le_trans (le_topMark v h) (Nat.le_max_left ..)
    · exact Nat.le_trans (le_topMarkFields rest h) (Nat.le_max_right ..)
end

/-- A mark that occurs is an old one or one that was given. -/
theorem mem_or_given {old marks : List Nat} {next last k : Nat} (h : marks.count k ≤ old.count k + given next last k)
    (hmem : k ∈ marks) : k ∈ old ∨ next ≤ k ∧ k < last := by
  have hpos := List.count_pos_iff.mpr hmem
  by_cases hold : k ∈ old
  · exact .inl hold
  · rw [List.count_eq_zero.mpr hold, given] at h
    split at h
    · rename_i hnew
      exact .inr hnew
    · omega

/-- Once everything in a tree has a mark, all of them are in use. -/
theorem lt_of_mem_stamp {k : Nat} (v : Value) (h : k ∈ (v.stamp (v.topMark + 1)).1.marks) :
    k < (v.stamp (v.topMark + 1)).2 := by
  have hle := (count_marks_stamp Nat.one_pos (v.topMark + 1) v).1
  rcases Nat.eq_zero_or_pos k with rfl | hk
  · exact Nat.lt_of_lt_of_le (Nat.succ_pos _) hle
  · rcases mem_or_given (Nat.le_of_eq (count_marks_stamp hk (v.topMark + 1) v).2) h with hold | hnew
    · exact Nat.lt_of_lt_of_le (Nat.lt_succ_of_le (le_topMark v hold)) hle
    · exact hnew.2

theorem marksItems_singleton (v : Value) : marksItems [v] = v.marks := List.append_nil _

/-- The marks in fields are those in their values. -/
theorem marksItems_map_snd (fs : Fields) : marksItems (fs.map Prod.snd) = marksFields fs := List.flatMap_map ..

end Value

variable {σ : Type}

/-- What has no mark was not edited. -/
theorem Trail.Sound.lookup_zero {t : Trail σ} (h : t.Sound) : t.revisions.lookup 0 = none := by
  cases hl : t.revisions.lookup 0 with
  | none => rfl
  | some c => exact absurd (h.closed 0 c hl).1 (Nat.lt_irrefl 0)

/-! ## Values that the walk has not reached -/

/-- Everything in the values has a mark that is in use, no mark stands at two places, and nothing was edited. -/
structure Trail.Intact (t : Trail σ) (xs : List Value) : Prop where
  placed : ∀ x ∈ xs, x.Placed
  bounded : ∀ k ∈ marksItems xs, k < t.next
  once : ∀ k, 0 < k → (marksItems xs).count k ≤ 1
  unedited : ∀ k ∈ marksItems xs, t.revisions.lookup k = none

namespace Trail.Intact

variable {t t' : Trail σ} {v : Value} {xs ys : List Value}

/-- What was not edited is up to date. -/
theorem settled (h : t.Intact xs) : ∀ x ∈ xs, x.Settled t.revisions :=
  fun x hx _ hc => .inl (h.unedited _ (List.mem_flatMap.mpr ⟨x, hx, List.mem_map_of_mem hc⟩))

theorem current (h : t.Intact [v]) : t.current v = v := (h.settled v List.mem_cons_self).refresh

/-- Some of the marks, in other values. -/
theorem sub (h : t.Intact xs) (hplaced : ∀ y ∈ ys, y.Placed)
    (hcount : ∀ k, (marksItems ys).count k ≤ (marksItems xs).count k) : t.Intact ys := by
  have hmem (k : Nat) (hk : k ∈ marksItems ys) : k ∈ marksItems xs :=
    List.count_pos_iff.mp (Nat.lt_of_lt_of_le (List.count_pos_iff.mpr hk) (hcount k))
  exact ⟨hplaced, fun k hk => h.bounded k (hmem k hk), fun k hk => Nat.le_trans (hcount k) (h.once k hk),
    fun k hk => h.unedited k (hmem k hk)⟩

theorem left (h : t.Intact (xs ++ ys)) : t.Intact xs :=
  h.sub (fun y hy => h.placed y (List.mem_append_left _ hy)) fun k => by
    rw [marksItems_append, List.count_append]
    exact Nat.le_add_right _ _

theorem right (h : t.Intact (xs ++ ys)) : t.Intact ys :=
  h.sub (fun y hy => h.placed y (List.mem_append_right _ hy)) fun k => by
    rw [marksItems_append, List.count_append]
    exact Nat.le_add_left _ _

/-- The items of a list. -/
theorem items {m : Nat} (h : t.Intact [.list m xs]) : t.Intact xs :=
  h.sub (placed_list.mp (h.placed _ List.mem_cons_self)).2 fun k => by
    rw [marksItems_singleton, marks_list, List.count_cons]
    exact Nat.le_add_right _ _

/-- The values of the fields of an object. -/
theorem fields {m : Nat} {fs : Fields} (h : t.Intact [.object m fs]) : t.Intact (fs.map Prod.snd) := by
  refine h.sub (fun y hy => ?_) fun k => ?_
  · obtain ⟨f, hf, rfl⟩ := List.mem_map.mp hy
    exact (placed_object.mp (h.placed _ List.mem_cons_self)).2 f hf
  · rw [marksItems_singleton, marks_object, marksItems_map_snd, List.count_cons]
    exact Nat.le_add_right _ _

/-- The same marks stand nowhere else. -/
theorem apart (h : t.Intact (xs ++ ys)) {k : Nat} (hk : 0 < k) (hx : k ∈ marksItems xs) : k ∉ marksItems ys := by
  intro hy
  have hle := h.once k hk
  rw [marksItems_append, List.count_append] at hle
  have h1 := List.count_pos_iff.mpr hx
  have h2 := List.count_pos_iff.mpr hy
  omega

/-- A value is not inside itself. -/
theorem self_not_mem {m : Nat} {marks : List Nat} (h : t.Intact [v]) (hm : 0 < m) (hv : v.marks = m :: marks) :
    m ∉ marks := by
  intro hmem
  have hle := h.once m hm
  rw [marksItems_singleton, hv, List.count_cons_self] at hle
  have hpos := List.count_pos_iff.mpr hmem
  omega

/-- Giving marks to other values changes nothing. -/
theorem later (h : t.Intact xs) (hrev : t'.revisions = t.revisions) (hle : t.next ≤ t'.next) : t'.Intact xs :=
  ⟨h.placed, fun k hk => Nat.lt_of_lt_of_le (h.bounded k hk) hle, h.once, fun k hk => hrev ▸ h.unedited k hk⟩

end Trail.Intact

/-! ## What the walk leaves behind -/

/-- The walk went through the values `xs`, and `out` stands in their place, from trail `t` to trail `t'`. Marks of `xs`
and new marks may have been edited, and no others. -/
structure Passed (t t' : Trail σ) (xs out : List Value) : Prop where
  next_le : t.next ≤ t'.next
  sound : t'.Sound
  keep : ∀ v : Value, v.Settled t.revisions → (∀ k ∈ v.marks, 0 < k → k < t.next ∧ k ∉ marksItems xs) →
    v.Settled t'.revisions
  unedited : ∀ k, 0 < k → k < t.next → k ∉ marksItems xs → t.revisions.lookup k = none → t'.revisions.lookup k = none
  origin : ∀ k, 0 < k → (marksItems out).count k ≤ (marksItems xs).count k + given t.next t'.next k
  settled : ∀ x ∈ out, x.Settled t'.revisions

namespace Passed

variable {t t₁ t₂ : Trail σ} {v : Value} {xs ys out out₁ out₂ : List Value}

/-- Values that stay as they are, while the visitor was asked at most. -/
theorem same (ht : t.Sound) (hi : t.Intact xs) (hrev : t₁.revisions = t.revisions) (hle : t.next ≤ t₁.next) :
    Passed t t₁ xs xs where
  next_le := hle
  sound := ht.later hrev hle
  keep _ hs _ := hrev ▸ hs
  unedited _ _ _ _ hl := hrev ▸ hl
  origin _ _ := Nat.le_add_right _ _
  settled := (hi.later hrev hle).settled

/-- Where a mark comes from. -/
theorem mem_origin (h : Passed t t₁ xs out) {k : Nat} (hk : 0 < k) (hmem : k ∈ marksItems out) :
    k ∈ marksItems xs ∨ t.next ≤ k ∧ k < t₁.next :=
  mem_or_given (h.origin k hk) hmem

/-- What stands elsewhere is not in what was left. -/
theorem apart (h : Passed t t₁ xs out) (hi : t.Intact (xs ++ ys)) {k : Nat} (hk : 0 < k) (hmem : k ∈ marksItems out) :
    k < t₁.next ∧ k ∉ marksItems ys := by
  have hle := h.next_le
  rcases h.mem_origin hk hmem with hin | hnew
  · have hlt := hi.left.bounded k hin
    exact ⟨by omega, hi.apart hk hin⟩
  · refine ⟨hnew.2, fun hy => ?_⟩
    have hlt := hi.right.bounded k hy
    omega

/-- What the walk has not reached stays intact. -/
theorem intact (h : Passed t t₁ xs out) (hi : t.Intact (xs ++ ys)) : t₁.Intact ys := by
  have hright := hi.right
  refine ⟨hright.placed, ?_, hright.once, ?_⟩
  · intro k hk
    exact Nat.lt_of_lt_of_le (hright.bounded k hk) h.next_le
  · intro k hk
    rcases Nat.eq_zero_or_pos k with rfl | hpos
    · exact h.sound.lookup_zero
    · exact h.unedited k hpos (hright.bounded k hk) (fun hx => hi.apart hpos hx hk) (hright.unedited k hk)

/-- **One part after another.** -/
theorem append (h₁ : Passed t t₁ xs out₁) (h₂ : Passed t₁ t₂ ys out₂) (hi : t.Intact (xs ++ ys)) :
    Passed t t₂ (xs ++ ys) (out₁ ++ out₂) where
  next_le := Nat.le_trans h₁.next_le h₂.next_le
  sound := h₂.sound
  keep v hs hv := by
    have hle := h₁.next_le
    simp only [marksItems_append, List.mem_append, not_or] at hv
    refine h₂.keep v (h₁.keep v hs fun k hk hpos => ?_) fun k hk hpos => ?_
    · exact ⟨(hv k hk hpos).1, (hv k hk hpos).2.1⟩
    · exact ⟨Nat.lt_of_lt_of_le (hv k hk hpos).1 hle, (hv k hk hpos).2.2⟩
  unedited k hpos hlt hnot hl := by
    rw [marksItems_append, List.mem_append, not_or] at hnot
    exact h₂.unedited k hpos (Nat.lt_of_lt_of_le hlt h₁.next_le) hnot.2 (h₁.unedited k hpos hlt hnot.1 hl)
  origin k hpos := by
    have ho₁ := h₁.origin k hpos
    have ho₂ := h₂.origin k hpos
    rw [marksItems_append, marksItems_append, List.count_append, List.count_append,
      ← given_trans h₁.next_le h₂.next_le k]
    omega
  settled x hx := by
    rcases List.mem_append.mp hx with hx | hx
    · -- the second part edits nothing that the first one left
      refine h₂.keep x (h₁.settled x hx) fun k hk hpos => ?_
      exact h₁.apart hi hpos (List.mem_flatMap.mpr ⟨x, hx, hk⟩)
    · exact h₂.settled x hx

/-- The rest stays as it is. -/
theorem stop (h : Passed t t₁ xs out) (hi : t.Intact (xs ++ ys)) : Passed t t₁ (xs ++ ys) (out ++ ys) :=
  h.append (.same h.sound (h.intact hi) rfl (Nat.le_refl _)) hi

/-- The walk through what an answer put in the place of `xs`. -/
theorem rebase (h : Passed t₁ t₂ ys out) (hrev : t₁.revisions = t.revisions) (hle : t.next ≤ t₁.next)
    (hcount : ∀ k, 0 < k → (marksItems ys).count k ≤ (marksItems xs).count k + given t.next t₁.next k) :
    Passed t t₂ xs out := by
  have hnot (k : Nat) (hpos : 0 < k) (hlt : k < t.next) (hk : k ∉ marksItems xs) : k ∉ marksItems ys := by
    have hc := hcount k hpos
    rw [List.count_eq_zero.mpr hk, given, if_neg (by omega)] at hc
    exact List.count_eq_zero.mp (by omega)
  refine ⟨Nat.le_trans hle h.next_le, h.sound, ?_, ?_, ?_, h.settled⟩
  · intro v hs hv
    apply h.keep v (hrev ▸ hs)
    intro k hk hpos
    obtain ⟨hlt, hout⟩ := hv k hk hpos
    exact ⟨Nat.lt_of_lt_of_le hlt hle, hnot k hpos hlt hout⟩
  · intro k hpos hlt hk hl
    exact h.unedited k hpos (Nat.lt_of_lt_of_le hlt hle) (hnot k hpos hlt hk) (hrev ▸ hl)
  · intro k hpos
    have ho := h.origin k hpos
    have hc := hcount k hpos
    have hg := given_trans hle h.next_le k
    omega

/-- The walk through the parts of `v` neither edits `v` itself nor puts it anywhere. -/
theorem self {m : Nat} (h : Passed t t₁ xs out) (hi : t.Intact [v]) (hm : 0 < m) (hv : v.marks = m :: marksItems xs) :
    m < t.next ∧ t₁.revisions.lookup m = none ∧ m ∉ marksItems out := by
  have hself := hi.self_not_mem hm hv
  have hmem : m ∈ marksItems [v] := by
    rw [marksItems_singleton, hv]
    exact List.mem_cons_self
  have hlt := hi.bounded m hmem
  refine ⟨hlt, h.unedited m hm hlt hself (hi.unedited m hmem), fun hin => ?_⟩
  rcases h.mem_origin hm hin with hin | hnew
  · exact hself hin
  · omega

/-- The walk through the parts of `v`, once `v` itself may be edited. -/
theorem edited {m : Nat} {w : Value} (h : Passed t t₁ xs out) (hm : 0 < m) (hlt : m < t.next)
    (hv : v.marks = m :: marksItems xs) (hw : w.marks = m :: marksItems out)
    (hrevised : Revised [m] t₁.revisions t₂.revisions) (hnext : t₂.next = t₁.next) (hs : w.Settled t₂.revisions) :
    Passed t t₂ [v] [w] := by
  have hle := h.next_le
  have hparts (k : Nat) (hk : k ∉ marksItems [v]) : k ≠ m ∧ k ∉ marksItems xs := by
    rw [marksItems_singleton, hv, List.mem_cons, not_or] at hk
    exact hk
  have hsound : t₂.Sound := by
    refine ⟨hnext ▸ h.sound.pos, hrevised.closed, ?_⟩
    intro k hk
    apply hrevised.lookup_none
    · intro hmem
      rw [List.mem_singleton.mp hmem] at hk
      omega
    · exact h.sound.fresh k (by omega)
  refine ⟨by omega, hsound, ?_, ?_, ?_, ?_⟩
  · intro u hu hmarks
    apply hrevised.keep u
    · apply h.keep u hu
      intro k hk hpos
      exact ⟨(hmarks k hk hpos).1, (hparts k (hmarks k hk hpos).2).2⟩
    · intro k hk hmem
      obtain rfl := List.mem_singleton.mp hmem
      exact (hparts k (hmarks k hk hm).2).1 rfl
  · intro k hpos hk hnot hl
    obtain ⟨hne, hout⟩ := hparts k hnot
    exact hrevised.lookup_none (fun hmem => hne (List.mem_singleton.mp hmem)) (h.unedited k hpos hk hout hl)
  · intro k hpos
    have ho := h.origin k hpos
    rw [marksItems_singleton, marksItems_singleton, hv, hw, List.count_cons, List.count_cons, hnext]
    omega
  · intro x hx
    rw [List.mem_singleton.mp hx]
    exact hs

/-- A list whose items were walked through. -/
theorem list {m : Nat} (h : Passed t t₁ xs out) (hi : t.Intact [.list m xs]) (edit : Bool) :
    Passed t (if edit then t₁.recordList m out else t₁) [.list m xs] [.list m out] := by
  have hm := (placed_list.mp (hi.placed _ List.mem_cons_self)).1
  obtain ⟨hlt, hl, hout⟩ := h.self hi hm (marks_list m xs)
  cases edit with
  | false =>
    exact h.edited hm hlt (marks_list m xs) (marks_list m out) (.refl h.sound.closed) rfl
      (settled_list.mpr ⟨.inl hl, h.settled⟩)
  | true =>
    obtain ⟨hrevised, hl⟩ := Revised.recordList h.sound.closed hm h.settled hout
    refine h.edited hm hlt (marks_list m xs) (marks_list m out) hrevised rfl (settled_list.mpr ⟨.inr hl, ?_⟩)
    intro x hx
    apply hrevised.keep x (h.settled x hx)
    intro k hk hkm
    rw [List.mem_singleton.mp hkm] at hk
    exact hout (List.mem_flatMap.mpr ⟨x, hx, hk⟩)

/-- An object whose fields were walked through. -/
theorem object {m : Nat} {fs gs : Fields} (h : Passed t t₁ (fs.map Prod.snd) (gs.map Prod.snd))
    (hi : t.Intact [.object m fs]) (edit : Bool) :
    Passed t (if edit then t₁.recordObject m gs else t₁) [.object m fs] [.object m gs] := by
  have hm := (placed_object.mp (hi.placed _ List.mem_cons_self)).1
  have hmarks (fs : Fields) : (Value.object m fs).marks = m :: marksItems (fs.map Prod.snd) := by
    rw [marks_object, marksItems_map_snd]
  have hsettled : ∀ g ∈ gs, g.2.Settled t₁.revisions := fun g hg => h.settled g.2 (List.mem_map_of_mem hg)
  obtain ⟨hlt, hl, hout⟩ := h.self hi hm (hmarks fs)
  cases edit with
  | false =>
    exact h.edited hm hlt (hmarks fs) (hmarks gs) (.refl h.sound.closed) rfl (settled_object.mpr ⟨.inl hl, hsettled⟩)
  | true =>
    rw [marksItems_map_snd] at hout
    obtain ⟨hrevised, hl⟩ := Revised.recordObject h.sound.closed hm hsettled hout
    refine h.edited hm hlt (hmarks fs) (hmarks gs) hrevised rfl (settled_object.mpr ⟨.inr hl, ?_⟩)
    intro g hg
    apply hrevised.keep g.2 (hsettled g hg)
    intro k hk hkm
    rw [List.mem_singleton.mp hkm] at hk
    exact hout (List.mem_flatMap.mpr ⟨g, hg, hk⟩)

end Passed
end EsmLift
