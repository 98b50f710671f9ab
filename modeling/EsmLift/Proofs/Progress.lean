import EsmLift.Proofs.Interruption
import EsmLift.Proofs.Steps

/-!
# `Proofs.Progress` — a pass makes steps, whether it returns or not

Wherever a fault stops the pass, the tree that is left behind can be reached from the given one by steps: some of the
candidates that programs own have given way to their pieces, and nothing else has happened. There may be programs
inside programs, and the fault may come from any depth.

The specifications below are for every end of a walk. What stands at a place when the walk is over is the value that
was there, brought up to date with the last revisions; the value that the walk returns may be behind, if a fault came
between an edit and the other places where the edited list occurs.

## Contents

* `Moved`: what the rest of the walk has to know about a part of it;
* `Advanced`, `AdvancedFields`, `AdvancedItems`, `AdvancedPieces`: what the pass achieves in the parts of a tree;
* `Lift.Stage.Advances`, `Lift.Passes.advances`: every rule of the pass makes steps;
* `Lift.run_steps`.
-/

namespace EsmLift

open Value Lift

/-! ## Parts of a walk -/

/-- Edits elsewhere leave what is current as it is. -/
theorem Revised.still {A : List Nat} {R R' : Revisions} (h : Revised A R R') (hR : R.Closed) {v : Value}
    (hm : ∀ m ∈ A, m ∉ (v.refresh R).marks) : v.refresh R' = v.refresh R := by
  rw [← h.again v]
  exact h.refresh_eq (settled_refresh hR v) fun m hmem hA => hm m hA hmem

/-- The walk went from trail `t` to trail `t'`, perhaps up to a fault. The marks in `pend` may have been edited, and
the marks `outs` that are there now were there before, in `ins`, or are new. -/
structure Moved (pend ins outs : List Nat) (t t' : Trail Memory) : Prop where
  next_le : t.next ≤ t'.next
  revised : Revised pend t.revisions t'.revisions
  origin : ∀ m ∈ outs, m ∈ ins ∨ t.next ≤ m ∧ m < t'.next

namespace Moved

variable {pend pend₁ pend₂ ins ins₁ ins₂ outs outs₁ outs₂ : List Nat} {t t' t₁ t₂ : Trail Memory}

/-- Nothing was edited. -/
theorem idle (ht : t.Sound) (hrev : t'.revisions = t.revisions) (hle : t.next ≤ t'.next) (ho : ∀ m ∈ outs, m ∈ ins) :
    Moved pend ins outs t t' :=
  ⟨hle, by rw [hrev]; exact .refl ht.closed, fun m hm => .inl (ho m hm)⟩

/-- The trail stays sound. -/
theorem sound (h : Moved pend ins outs t t') (ht : t.Sound) (hp : ∀ m ∈ pend, m < t.next) : t'.Sound where
  pos := Nat.lt_of_lt_of_le ht.pos h.next_le
  closed := h.revised.closed
  fresh m hm := by
    have hle := Nat.le_trans h.next_le hm
    exact h.revised.lookup_none (fun hmem => absurd (hp m hmem) (Nat.not_lt.mpr hle)) (ht.fresh m hle)

/-- One part after another. -/
theorem trans (h₁ : Moved pend₁ ins₁ outs₁ t t₁) (h₂ : Moved pend₂ ins₂ outs₂ t₁ t₂) (hp₁ : ∀ m ∈ pend₁, m ∈ pend)
    (hp₂ : ∀ m ∈ pend₂, m ∈ pend) (hi₁ : ∀ m ∈ ins₁, m ∈ ins)
    (hi₂ : ∀ m ∈ ins₂, m ∈ ins ∨ t.next ≤ m ∧ m < t₁.next) : Moved pend ins (outs₁ ++ outs₂) t t₂ where
  next_le := Nat.le_trans h₁.next_le h₂.next_le
  revised := (h₁.revised.trans h₂.revised).mono fun m hm => (List.mem_append.mp hm).elim (hp₁ m) (hp₂ m)
  origin m hm := by
    have hle₁ := h₁.next_le
    have hle₂ := h₂.next_le
    rcases List.mem_append.mp hm with hm | hm
    · exact (h₁.origin m hm).imp (hi₁ m) fun h => by omega
    · rcases h₂.origin m hm with hin | hnew
      · exact (hi₂ m hin).imp id fun h => by omega
      · exact .inr (by omega)

/-- More may be pending, and there may be more marks. -/
theorem mono (h : Moved pend₁ ins₁ outs₁ t t') (hp : ∀ m ∈ pend₁, m ∈ pend) (hi : ∀ m ∈ ins₁, m ∈ ins)
    (ho : ∀ m ∈ outs, m ∈ outs₁ ∨ m ∈ ins) : Moved pend ins outs t t' where
  next_le := h.next_le
  revised := h.revised.mono hp
  origin m hm := by
    rcases ho m hm with hm | hm
    · exact (h.origin m hm).imp (hi m) id
    · exact .inl hm

/-- A part that comes second edits nothing that the first one left behind, if what is pending occurs once. -/
theorem apart (h : Moved pend₁ ins₁ outs₁ t t₁) (hr : t.Ready (pend₁ ++ pend₂) (ins₁ ++ ins₂))
    (hp : ∀ m ∈ pend₂, m ∈ ins₂) : ∀ m ∈ pend₂, m ∉ outs₁ := by
  intro m hm hout
  rcases h.origin m hout with hin | hnew
  · exact hr.disjoint (List.mem_append_right _ hm) hin (hp m hm)
  · have hlt := (hr.right.bounded m (hp m hm)).2
    omega

/-- The question before a part belongs to it. -/
theorem after (h : Moved pend ins outs t₁ t₂) (hrev : t₁.revisions = t.revisions) (hle : t.next ≤ t₁.next) :
    Moved pend ins outs t t₂ where
  next_le := Nat.le_trans hle h.next_le
  revised := hrev ▸ h.revised
  origin m hm := (h.origin m hm).imp id fun hnew => ⟨Nat.le_trans hle hnew.1, hnew.2⟩

end Moved

variable (keepComments : Bool)

/-- The walk went through a value, perhaps up to a fault; `out` is what it returned. -/
structure Advanced (place : Place) (pend : List Nat) (v out : Value) (t t' : Trail Memory) : Prop where
  moved : Moved pend v.marks (v.refresh t'.revisions).marks t t'
  same : out.refresh t'.revisions = v.refresh t'.revisions
  steps : Steps keepComments place v.erase (v.refresh t'.revisions).erase

/-- The walk went through fields, perhaps up to a fault. -/
structure AdvancedFields (program : Bool) (fs out : Fields) (t t' : Trail Memory) : Prop where
  moved : Moved (pendingFields program fs) (marksFields fs)
    (marksFields (fs.map fun f => (f.1, f.2.refresh t'.revisions))) t t'
  same : (out.map fun f => (f.1, f.2.refresh t'.revisions)) = fs.map fun f => (f.1, f.2.refresh t'.revisions)
  steps : ∀ f ∈ fs, if Syntax.metadataKeys.contains f.1 then f.2.refresh t'.revisions = f.2
    else Steps keepComments (.under program) f.2.erase (f.2.refresh t'.revisions).erase

/-- The walk went through items, perhaps up to a fault. -/
structure AdvancedItems (program : Bool) (xs out : List Value) (edited : Bool) (t t' : Trail Memory) : Prop where
  moved : Moved (pendingItems program xs) (marksItems xs) (marksItems (out.map (Value.refresh t'.revisions))) t t'
  steps : Steps keepComments (.under program) (.list 0 (xs.map erase))
    (.list 0 ((out.map (Value.refresh t'.revisions)).map erase))
  spliced : edited = true → (program && xs.any Statement.loads) = true
  kept : edited = false → out.map (Value.refresh t'.revisions) = xs.map (Value.refresh t'.revisions)

/-- The walk went through pieces with the common kind `kind`, perhaps up to a fault. -/
structure AdvancedPieces (pend : List Nat) (kind : Value) (ps : List Piece) (out : List Value) (t t' : Trail Memory) :
    Prop where
  moved : Moved pend (kind.marks ++ marksItems (ps.map Piece.own))
    (marksItems (out.map (Value.refresh t'.revisions))) t t'
  same : out.map (Value.refresh t'.revisions) = ps.map fun p => (p.value kind).refresh t'.revisions
  steps : ∀ p ∈ ps, Steps keepComments (.under true) (p.value kind).erase ((p.value kind).refresh t'.revisions).erase

variable {keepComments : Bool}

/-! ## Objects and their fields -/

/-- A value that the walk did not get to. -/
theorem Advanced.idle {place : Place} {pend : List Nat} {v : Value} {t t' : Trail Memory} (ht : t.Sound)
    (hs : v.Settled t.revisions) (hrev : t'.revisions = t.revisions) (hle : t.next ≤ t'.next) :
    Advanced keepComments place pend v v t t' := by
  have hself : v.refresh t'.revisions = v := hrev ▸ hs.refresh
  refine ⟨.idle ht hrev hle ?_, rfl, ?_⟩
  · rw [hself]
    exact fun _ hm => hm
  · rw [hself]

theorem AdvancedFields.idle {program : Bool} {fs : Fields} {t : Trail Memory} (ht : t.Sound)
    (hs : ∀ f ∈ fs, f.2.Settled t.revisions) : AdvancedFields keepComments program fs fs t t := by
  have hself : (fs.map fun f => (f.1, f.2.refresh t.revisions)) = fs :=
    Fields.map_self (g := fun _ v => v.refresh t.revisions) fun f hf => (hs f hf).refresh
  refine ⟨.idle ht rfl (Nat.le_refl _) (by rw [hself]; exact fun _ hm => hm), rfl, fun f hf => ?_⟩
  rw [(hs f hf).refresh]
  split
  · rfl
  · exact .refl

/-- One field, and then the others. -/
theorem AdvancedFields.cons {program : Bool} {key : String} {v out : Value} {fs outs : Fields} {t t₁ t₂ : Trail Memory}
    (hr : t.Ready (pendingFields program ((key, v) :: fs)) (marksFields ((key, v) :: fs)))
    (hs : v.Settled t.revisions)
    (h₁ : Advanced keepComments (.under program)
      (if Syntax.metadataKeys.contains key then [] else pendingSlot program v) v out t t₁)
    (h₂ : AdvancedFields keepComments program fs outs t₁ t₂) :
    AdvancedFields keepComments program ((key, v) :: fs) ((key, out) :: outs) t t₂ := by
  rw [pendingFields, marksFields_cons] at hr
  have hsep := h₁.moved.apart hr fun m => mem_marks_of_pendingFields program fs
  have hstill := h₂.moved.revised.still h₁.moved.revised.closed hsep
  refine ⟨?_, ?_, List.forall_mem_cons.mpr ⟨?_, h₂.steps⟩⟩
  · rw [pendingFields, marksFields_cons, List.map_cons, marksFields_cons, hstill]
    exact h₁.moved.trans h₂.moved (fun m => List.mem_append_left _) (fun m => List.mem_append_right _)
      (fun m => List.mem_append_left _) fun m hm => .inl (List.mem_append_right _ hm)
  · have hsame : out.refresh t₂.revisions = v.refresh t₂.revisions := by
      rw [← h₂.moved.revised.again out, h₁.same, h₂.moved.revised.again v]
    rw [List.map_cons, List.map_cons, h₂.same, hsame]
  · have hsteps := h₁.steps
    have hrevised := h₁.moved.revised
    dsimp only
    rw [hstill]
    by_cases hk : Syntax.metadataKeys.contains key = true
    · rw [if_pos hk] at hrevised ⊢
      exact hrevised.refresh_eq hs fun _ _ => List.not_mem_nil
    · rw [if_neg hk]
      exact hsteps

/-- The fields that follow a field are as they were, if the walk does not get to them. -/
theorem Advanced.settled_fields {program : Bool} {key : String} {v out : Value} {fs : Fields} {t t₁ : Trail Memory}
    {place : Place} (h : Advanced keepComments place
      (if Syntax.metadataKeys.contains key then [] else pendingSlot program v) v out t t₁)
    (hr : t.Ready (pendingFields program ((key, v) :: fs)) (marksFields ((key, v) :: fs)))
    (hs : ∀ g ∈ fs, g.2.Settled t.revisions) : ∀ g ∈ fs, g.2.Settled t₁.revisions := by
  rw [pendingFields, marksFields_cons] at hr
  intro g hg
  refine h.moved.revised.keep _ (hs g hg) fun m hmg hm => ?_
  have hin : m ∈ v.marks := by
    split at hm
    · exact absurd hm List.not_mem_nil
    · exact mem_marks_of_pendingSlot program v hm
  exact hr.disjoint (List.mem_append_left _ hm) hin (List.mem_flatMap.mpr ⟨g, hg, hmg⟩)

/-- An object, once the walk went through its fields. -/
theorem AdvancedFields.object {place : Place} {m : Nat} {fs out : Fields} {t t' : Trail Memory}
    (hs : (Value.object m fs).Settled t.revisions) (hr : t.Ready (Value.object m fs).pending (Value.object m fs).marks)
    (hplace : place = .root ∨ (Value.object m fs).isNode = true)
    (h : AdvancedFields keepComments ((Value.object m fs).isA .program) fs out t t') :
    Advanced keepComments place (Value.object m fs).pending (.object m fs) (.object m out) t t' := by
  rw [pending, marks_object] at hr
  have hmark : m ∉ pendingFields ((Value.object m fs).isA .program) fs := fun hm =>
    hr.head_not_mem hm (mem_marks_of_pendingFields _ fs hm)
  have hparts : (Value.object m fs).refresh t'.revisions
      = .object m (fs.map fun f => (f.1, f.2.refresh t'.revisions)) := h.moved.revised.refresh_parts hs hmark
  refine ⟨?_, ?_, ?_⟩
  · rw [hparts, pending, marks_object, marks_object]
    exact h.moved.mono (fun _ hm => hm) (fun _ => List.mem_cons_of_mem _)
      fun k hk => (List.mem_cons.mp hk).elim (fun h => .inr (List.mem_cons.mpr (.inl h))) .inl
  · rw [Value.refresh, Value.refresh, refreshFields_eq_map, refreshFields_eq_map, h.same]
  · have hA := regular_erase.isA (.object m fs) .program
    have hnode := isNode_erase (.object m fs)
    rw [erase_object] at hA hnode
    have hall (f : String × Value) (hf : f ∈ fs) : if Syntax.metadataKeys.contains f.1 then
        f.2.erase = (f.2.refresh t'.revisions).erase
        else Steps keepComments (.under ((Value.object m fs).isA .program)) f.2.erase
          (f.2.refresh t'.revisions).erase := by
      have hstep := h.steps f hf
      split at hstep
      · rename_i hk
        rw [if_pos hk, hstep]
      · rename_i hk
        rw [if_neg hk]
        exact hstep
    rw [← hA] at hall
    rw [hparts, erase_object, erase_object, List.map_map]
    exact Steps.fields (fun f => f.2.erase) (fun f => (f.2.refresh t'.revisions).erase) [] fs
      (hplace.imp_right fun hn => hnode.trans hn) hall

/-! ## Lists and their items -/

theorem refresh_items_self {R : Revisions} {xs : List Value} (hs : ∀ x ∈ xs, x.Settled R) :
    xs.map (Value.refresh R) = xs :=
  items_map_self fun x hx => (hs x hx).refresh

theorem AdvancedItems.idle {program : Bool} {xs : List Value} {t t' : Trail Memory} (ht : t.Sound)
    (hs : ∀ x ∈ xs, x.Settled t.revisions) (hrev : t'.revisions = t.revisions) (hle : t.next ≤ t'.next) :
    AdvancedItems keepComments program xs xs false t t' := by
  have hself : xs.map (Value.refresh t'.revisions) = xs := hrev ▸ refresh_items_self hs
  refine ⟨.idle ht hrev hle ?_, ?_, nofun, fun _ => rfl⟩
  · rw [hself]
    exact fun _ hm => hm
  · rw [hself]

/-- What the walk left of items is still there after edits elsewhere. -/
theorem AdvancedItems.still {program : Bool} {xs out : List Value} {edited : Bool} {t t₁ t₂ : Trail Memory}
    {pend : List Nat} (h : AdvancedItems keepComments program xs out edited t t₁)
    (hrevised : Revised pend t₁.revisions t₂.revisions)
    (hsep : ∀ m ∈ pend, m ∉ marksItems (out.map (Value.refresh t₁.revisions))) :
    out.map (Value.refresh t₂.revisions) = out.map (Value.refresh t₁.revisions) := by
  refine List.map_congr_left fun x hx => hrevised.still h.moved.revised.closed fun m hm hmx => hsep m hm ?_
  exact List.mem_flatMap.mpr ⟨_, List.mem_map_of_mem hx, hmx⟩

/-- One item, and then the others. -/
theorem AdvancedItems.cons {program : Bool} {v : Value} {xs out outs : List Value} {edited edited' : Bool}
    {t t₁ t₂ : Trail Memory} (hr : t.Ready (pendingItems program (v :: xs)) (marksItems (v :: xs)))
    (h₁ : AdvancedItems keepComments program [v] out edited t t₁)
    (h₂ : AdvancedItems keepComments program xs outs edited' t₁ t₂) :
    AdvancedItems keepComments program (v :: xs) (out ++ outs) (edited || edited') t t₂ := by
  have hpend : pendingItems program (v :: xs) = pendingItems program [v] ++ pendingItems program xs :=
    pendingItems_append program [v] xs
  have hmarks : marksItems (v :: xs) = marksItems [v] ++ marksItems xs := marksItems_append [v] xs
  rw [hpend, hmarks] at hr
  have hsep := h₁.moved.apart hr fun m => mem_marks_of_pendingItems program xs
  have hstill := h₁.still h₂.moved.revised hsep
  refine ⟨?_, ?_, fun he => ?_, fun he => ?_⟩
  · rw [hpend, hmarks, List.map_append, marksItems_append, hstill]
    exact h₁.moved.trans h₂.moved (fun m => List.mem_append_left _) (fun m => List.mem_append_right _)
      (fun m => List.mem_append_left _) fun m hm => .inl (List.mem_append_right _ hm)
  · -- first in front of the old items, then in front of the new ones
    have hfirst := h₁.steps.around [] (xs.map erase)
    have hrest := h₂.steps.around ((out.map (Value.refresh t₁.revisions)).map erase) []
    rw [List.append_nil, List.append_nil] at hrest
    rw [List.map_append, hstill, List.map_append]
    exact hfirst.trans hrest
  · rw [List.any_cons]
    rcases Bool.or_eq_true_iff.mp he with he | he
    · have h := h₁.spliced he
      simp only [List.any_cons, List.any_nil, Bool.or_false, Bool.and_eq_true] at h
      rw [h.1, h.2]
      rfl
    · have h := h₂.spliced he
      simp only [Bool.and_eq_true] at h
      rw [h.1, h.2, Bool.or_true]
      rfl
  · obtain ⟨he₁, he₂⟩ := Bool.or_eq_false_iff.mp he
    have hagain (ys : List Value) : (ys.map (Value.refresh t₁.revisions)).map (Value.refresh t₂.revisions)
        = ys.map (Value.refresh t₂.revisions) := by
      rw [List.map_map]
      exact List.map_congr_left fun y _ => h₂.moved.revised.again y
    have hout : out.map (Value.refresh t₂.revisions) = [v].map (Value.refresh t₂.revisions) := by
      rw [← hagain out, h₁.kept he₁, hagain [v]]
    rw [List.map_append, hout, h₂.kept he₂]
    rfl

/-- The items that follow an item are as they were, if the walk does not get to them. -/
theorem AdvancedItems.settled_rest {program : Bool} {v : Value} {xs out : List Value} {edited : Bool}
    {t t₁ : Trail Memory} (h : AdvancedItems keepComments program [v] out edited t t₁)
    (hr : t.Ready (pendingItems program (v :: xs)) (marksItems (v :: xs))) (hs : ∀ x ∈ xs, x.Settled t.revisions) :
    ∀ x ∈ xs, x.Settled t₁.revisions := by
  have hpend : pendingItems program (v :: xs) = pendingItems program [v] ++ pendingItems program xs :=
    pendingItems_append program [v] xs
  have hmarks : marksItems (v :: xs) = marksItems [v] ++ marksItems xs := marksItems_append [v] xs
  rw [hpend, hmarks] at hr
  intro x hx
  refine h.moved.revised.keep x (hs x hx) fun m hmx hm => ?_
  exact hr.disjoint (List.mem_append_left _ hm) (mem_marks_of_pendingItems program [v] hm)
    (List.mem_flatMap.mpr ⟨x, hx, hmx⟩)

section

variable {program : Bool} {mark : Nat} {xs out : List Value} {t t₁ : Trail Memory}

/-- What is pending in the items is pending in the list. -/
theorem mem_pendingSlot_list {m : Nat} (h : m ∈ pendingItems program xs) : m ∈ pendingSlot program (.list mark xs) :=
  List.mem_append_right _ h

theorem AdvancedItems.listKept (hs : (Value.list mark xs).Settled t.revisions)
    (hr : t.Ready (pendingSlot program (.list mark xs)) (Value.list mark xs).marks)
    (h : AdvancedItems keepComments program xs out false t t₁) :
    Advanced keepComments (.under program) (pendingSlot program (.list mark xs)) (.list mark xs) (.list mark out)
      t t₁ := by
  rw [marks_list] at hr
  have hmark : mark ∉ pendingItems program xs := fun hm =>
    hr.head_not_mem (mem_pendingSlot_list hm) (mem_marks_of_pendingItems _ xs hm)
  have hparts : (Value.list mark xs).refresh t₁.revisions = .list mark (xs.map (Value.refresh t₁.revisions)) :=
    h.moved.revised.refresh_parts hs hmark
  have hsteps := h.steps
  have hmoved := h.moved
  rw [h.kept rfl] at hsteps hmoved
  refine ⟨?_, ?_, ?_⟩
  · rw [hparts, marks_list, marks_list]
    exact hmoved.mono (fun m => mem_pendingSlot_list) (fun m => List.mem_cons_of_mem _)
      fun m hm => (List.mem_cons.mp hm).elim (fun h => .inr (List.mem_cons.mpr (.inl h))) .inl
  · rw [Value.refresh, Value.refresh, refreshItems_eq_map, refreshItems_eq_map, h.kept rfl]
  · rw [hparts, erase_list, erase_list]
    exact hsteps

theorem AdvancedItems.listEdited
    (hr : t.Ready (pendingSlot program (.list mark xs)) (Value.list mark xs).marks)
    (h : AdvancedItems keepComments program xs out true t t₁) :
    Advanced keepComments (.under program) (pendingSlot program (.list mark xs)) (.list mark xs) (.list mark out) t
      (t₁.recordList mark out) := by
  rw [marks_list] at hr
  have hmark := hr.bounded mark List.mem_cons_self
  have hclosed := h.moved.revised.closed
  have hself : mark ∈ pendingSlot program (.list mark xs) := by
    rw [pendingSlot, if_pos (h.spliced rfl)]
    exact List.mem_cons_self
  -- the list is pending itself, so neither the old items nor the new ones hold it
  have hout : mark ∉ marksItems (out.map (Value.refresh t₁.revisions)) := by
    intro hm
    rcases h.moved.origin mark hm with hin | hnew
    · exact hr.head_not_mem hself hin
    · omega
  have hcurrent : ∀ x ∈ out.map (Value.refresh t₁.revisions), x.Settled t₁.revisions := by
    intro x hx
    obtain ⟨y, _, rfl⟩ := List.mem_map.mp hx
    exact settled_refresh hclosed y
  obtain ⟨hrevised, hlookup⟩ := Revised.recordList hclosed hmark.1 hcurrent hout
  -- recording brings the items up to date anyway
  have hrecord : t₁.revisions.recordList mark (out.map (Value.refresh t₁.revisions))
      = t₁.revisions.recordList mark out := by
    rw [Revisions.recordList, Revisions.recordList, refreshItems_eq_map, refreshItems_eq_map,
      refresh_items_self hcurrent]
  rw [hrecord] at hrevised hlookup
  have hnow (ys : List Value) : (Value.list mark ys).refresh (t₁.recordList mark out).revisions
      = .list mark (out.map (Value.refresh t₁.revisions)) := by
    rw [Value.refresh, Trail.recordList, hlookup, Option.getD_some]
  refine ⟨?_, ?_, ?_⟩
  · have hlast : Moved [mark] [] [] t₁ (t₁.recordList mark out) :=
      ⟨Nat.le_refl _, hrevised, List.forall_mem_nil _⟩
    have hboth := h.moved.trans hlast (fun m => mem_pendingSlot_list)
      (fun m hm => by rw [List.mem_singleton.mp hm]; exact hself) (fun m hm => List.mem_cons_of_mem mark hm)
      (List.forall_mem_nil _)
    rw [hnow, marks_list, marks_list]
    rw [List.append_nil] at hboth
    exact hboth.mono (fun _ hm => hm) (fun _ hm => hm)
      fun m hm => (List.mem_cons.mp hm).elim (fun h => .inr (List.mem_cons.mpr (.inl h))) .inl
  · rw [hnow, hnow]
  · rw [hnow, erase_list, erase_list]
    exact h.steps

/-- A list, once the walk went through its items. If some were replaced, the new ones are kept under its mark. -/
theorem AdvancedItems.list {edited : Bool} (hs : (Value.list mark xs).Settled t.revisions)
    (hr : t.Ready (pendingSlot program (.list mark xs)) (Value.list mark xs).marks)
    (h : AdvancedItems keepComments program xs out edited t t₁) :
    Advanced keepComments (.under program) (pendingSlot program (.list mark xs)) (.list mark xs) (.list mark out) t
      (if edited then t₁.recordList mark out else t₁) := by
  cases edited with
  | false => exact h.listKept hs hr
  | true => exact h.listEdited hr

end

/-! ## Pieces with a common kind -/

/-- Steps in the kind are steps in a plain piece; the other pieces do not have the kind. -/
theorem Piece.steps_value {p : Piece} {kind kind' : Value} (hA : (p.value kind).isA .program = false)
    (hnode : (p.value kind).isNode = true) (h : Steps keepComments (.under false) kind.erase kind'.erase)
    (place : Place) : Steps keepComments place (p.value kind).erase (p.value kind').erase := by
  have hAe := (regular_erase.isA (p.value kind) .program).trans hA
  have hnodeE := (isNode_erase (p.value kind)).trans hnode
  cases hplain : p.plain with
  | false =>
    have hsame : p.value kind = p.value kind' := by
      unfold value head
      rw [hplain, if_neg Bool.false_ne_true, if_neg Bool.false_ne_true]
    rw [hsame]
  | true =>
    have hfields (k : Value) : (p.value k).erase = .object 0 ([("type", NodeType.variableDeclaration.value.erase)] ++
        ("kind", k.erase) :: p.fields.map fun f => (f.1, f.2.erase)) := by
      rw [value, erase_object, head, if_pos hplain]
      rfl
    have hkey : Syntax.metadataKeys.contains "kind" = false := by decide
    rw [hfields] at hAe hnodeE
    rw [hfields, hfields]
    exact .field (.inr hnodeE) hkey (hAe ▸ h)

/-- The kind after a piece, whether the walk through the piece was stopped or not. -/
theorem Advanced.kind {p : Piece} {kind out : Value} {place : Place} {t t₁ : Trail Memory}
    (hA : (p.value kind).isA .program = false) (hs : kind.Settled t.revisions)
    (hsv : (p.value kind).Settled t.revisions)
    (hr : t.Ready (pendingSlot false kind ++ pendingFields false p.fields) (kind.marks ++ p.own.marks))
    (h : Advanced keepComments place (p.value kind).pending (p.value kind) out t t₁) :
    Steps keepComments (.under false) kind.erase (kind.refresh t₁.revisions).erase ∧
      ∀ m ∈ (kind.refresh t₁.revisions).marks,
        m ∈ kind.marks ++ p.own.marks ∨ t.next ≤ m ∧ m < t₁.next := by
  cases hplain : p.plain with
  | false =>
    rw [Piece.kind_of_import hA hplain hs hr h.moved.revised]
    exact ⟨.refl, fun m hm => .inl (List.mem_append_left _ hm)⟩
  | true =>
    have hmark : (p.value kind).mark ∉ (p.value kind).pending := fun hm =>
      Piece.mark_not_pending hr (Piece.pending_value_subset hA hm)
    -- the piece as it is now has the kind as it is now
    obtain ⟨q, hq, hvalue⟩ : ∃ q : Piece, q.plain = true ∧
        (p.value kind).refresh t₁.revisions = q.value (kind.refresh t₁.revisions) := by
      refine ⟨{ p with fields := p.fields.map fun f => (f.1, f.2.refresh t₁.revisions) }, hplain, ?_⟩
      rw [h.moved.revised.refresh_parts hsv hmark, Piece.refreshParts_value]
      rfl
    have hbefore : (p.value kind).erase.get? "kind" = some kind.erase := by
      rw [get?_erase, Piece.get?_kind hplain]
      rfl
    have hafter : ((p.value kind).refresh t₁.revisions).erase.get? "kind"
        = some (kind.refresh t₁.revisions).erase := by
      rw [hvalue, get?_erase, Piece.get?_kind hq]
      rfl
    obtain ⟨u, hu, hsteps⟩ := h.steps.exists_get? ((regular_erase.isA _ _).trans hA) hbefore
    rw [hafter] at hu
    cases hu
    refine ⟨hsteps, fun m hm => ?_⟩
    have hmem := Piece.mem_marks_kind hq hm
    rw [← hvalue] at hmem
    rcases h.moved.origin m hmem with hin | hnew
    · rcases Piece.mem_marks_value hin with hin | hin
      · exact .inl (List.mem_append_right _ hin)
      · exact .inl (List.mem_append_left _ hin.2)
    · exact .inr hnew

/-- What the walk through a piece did not get to. -/
theorem Advanced.own_rest {p : Piece} {rest : List Piece} {kind out : Value} {place : Place} {t t₁ : Trail Memory}
    (hA : (p.value kind).isA .program = false)
    (hown : ∀ q ∈ rest, q.own.Settled t.revisions ∧ t.revisions.lookup q.mark = none)
    (hr : t.Ready (pendingSlot false kind ++
        (pendingFields false p.fields ++ rest.flatMap fun q => pendingFields false q.fields))
      (kind.marks ++ (p.own.marks ++ marksItems (rest.map Piece.own))))
    (h : Advanced keepComments place (p.value kind).pending (p.value kind) out t t₁) :
    ∀ q ∈ rest, q.own.Settled t₁.revisions ∧ t₁.revisions.lookup q.mark = none := by
  intro q hq
  have hapart (m : Nat) (hm : m ∈ q.own.marks) : m ∉ (p.value kind).pending := first_apart hA hr hq hm
  have hmark : q.mark ∈ q.own.marks := by
    rw [Piece.own, marks_object]
    exact List.mem_cons_self
  exact ⟨h.moved.revised.keep _ (hown q hq).1 hapart,
    h.moved.revised.lookup_none (hapart _ hmark) (hown q hq).2⟩

/-- Pieces that the walk did not get to; the kind in them may be out of date. -/
theorem AdvancedPieces.idle {pend : List Nat} {kind : Value} {ps : List Piece} {t : Trail Memory} (ht : t.Sound)
    (hown : ∀ p ∈ ps, p.own.Settled t.revisions ∧ t.revisions.lookup p.mark = none) :
    AdvancedPieces keepComments pend (t.current kind) ps (ps.map (Piece.value kind)) t t := by
  have hkind : (t.current kind).refresh t.revisions = t.current kind := (settled_refresh ht.closed kind).refresh
  have hnow (p : Piece) (hp : p ∈ ps) : (p.value kind).refresh t.revisions = p.value (t.current kind) :=
    Piece.refresh_value (hown p hp).1 (hown p hp).2
  have hself (p : Piece) (hp : p ∈ ps) : (p.value (t.current kind)).refresh t.revisions = p.value (t.current kind) := by
    rw [Piece.refresh_value (hown p hp).1 (hown p hp).2, hkind]
  refine ⟨.idle ht rfl (Nat.le_refl _) fun m hm => ?_, ?_, fun p hp => ?_⟩
  · obtain ⟨x, hx, hm⟩ := List.mem_flatMap.mp hm
    obtain ⟨y, hy, rfl⟩ := List.mem_map.mp hx
    obtain ⟨p, hp, rfl⟩ := List.mem_map.mp hy
    rw [hnow p hp] at hm
    rcases Piece.mem_marks_value hm with hm | hm
    · exact List.mem_append_right _ (List.mem_flatMap.mpr ⟨p.own, List.mem_map_of_mem hp, hm⟩)
    · exact List.mem_append_left _ hm.2
  · rw [List.map_map]
    exact List.map_congr_left fun p hp => (hnow p hp).trans (hself p hp).symm
  · rw [hself p hp]

/-- One piece, and then the others. -/
theorem AdvancedPieces.cons {p : Piece} {rest : List Piece} {kind out : Value} {outs : List Value} {pend : List Nat}
    {t t₁ t₂ : Trail Memory} (ht : t.Sound) (hA : ∀ q ∈ p :: rest, ∀ k, (q.value k).isA .program = false)
    (hnode : ∀ q ∈ p :: rest, ∀ k, (q.value k).isNode = true)
    (hown : ∀ q ∈ p :: rest, q.own.Settled t.revisions ∧ t.revisions.lookup q.mark = none)
    (hr : t.Ready (pendingSlot false (t.current kind) ++
        (pendingFields false p.fields ++ rest.flatMap fun q => pendingFields false q.fields))
      ((t.current kind).marks ++ (p.own.marks ++ marksItems (rest.map Piece.own))))
    (h₁ : Advanced keepComments (.under true) (p.value (t.current kind)).pending (p.value (t.current kind)) out t t₁)
    (h₂ : AdvancedPieces keepComments pend (t₁.current kind) rest outs t₁ t₂)
    (hstill : (p.value (t.current kind)).refresh t₂.revisions = (p.value (t.current kind)).refresh t₁.revisions)
    (hpend : ∀ m ∈ pend, m ∈ pendingSlot false (t.current kind) ++
      (pendingFields false p.fields ++ rest.flatMap fun q => pendingFields false q.fields)) :
    AdvancedPieces keepComments (pendingSlot false (t.current kind) ++
        (pendingFields false p.fields ++ rest.flatMap fun q => pendingFields false q.fields))
      (t.current kind) (p :: rest) (out :: outs) t t₂ := by
  obtain ⟨hAp, hArest⟩ := List.forall_mem_cons.mp hA
  obtain ⟨_, hnodeRest⟩ := List.forall_mem_cons.mp hnode
  obtain ⟨hownP, hownRest⟩ := List.forall_mem_cons.mp hown
  obtain ⟨_, hsv, hrP, _⟩ := Walk.piece_ready ht (hAp _) hownP hr
  have hagain : (t.current kind).refresh t₁.revisions = t₁.current kind := h₁.moved.revised.again kind
  have hsettled : (t.current kind).Settled t.revisions := settled_refresh ht.closed kind
  obtain ⟨hkind, hmarks⟩ := h₁.kind (hAp _) hsettled hsv hrP
  rw [hagain] at hkind hmarks
  have hownNow := h₁.own_rest (hAp _) hownRest hr
  have hsame : out.refresh t₂.revisions = (p.value (t.current kind)).refresh t₂.revisions := by
    rw [← h₂.moved.revised.again out, h₁.same, h₂.moved.revised.again]
  -- the first piece left its kind to the others
  have hleft (q : Piece) (hq : q ∈ rest) :
      (q.value (t₁.current kind)).refresh t₂.revisions = (q.value (t.current kind)).refresh t₂.revisions := by
    rw [← hagain, ← Piece.refresh_value (hownNow q hq).1 (hownNow q hq).2, h₂.moved.revised.again]
  refine ⟨?_, ?_, List.forall_mem_cons.mpr ⟨?_, fun q hq => ?_⟩⟩
  · rw [List.map_cons, marksItems_cons, List.map_cons, marksItems_cons, hsame, hstill]
    refine h₁.moved.trans h₂.moved (fun m hm => ?_) hpend (fun m hm => ?_) fun m hm => ?_
    · rw [← List.append_assoc]
      exact List.mem_append_left _ (Piece.pending_value_subset (hAp _) hm)
    · rcases Piece.mem_marks_value hm with hm | hm
      · exact List.mem_append_right _ (List.mem_append_left _ hm)
      · exact List.mem_append_left _ hm.2
    · rw [← List.append_assoc]
      rcases List.mem_append.mp hm with hm | hm
      · exact (hmarks m hm).imp (List.mem_append_left _) id
      · exact .inl (List.mem_append_right _ hm)
  · rw [List.map_cons, List.map_cons, hsame, h₂.same]
    exact congrArg _ (List.map_congr_left hleft)
  · rw [hstill]
    exact h₁.steps
  · have hfirst := Piece.steps_value (hArest q hq _) (hnodeRest q hq _) hkind (.under true)
    rw [← hleft q hq]
    exact hfirst.trans (h₂.steps q hq)

/-! ## Items -/

/-- An item that is kept, and walked through. -/
theorem Advanced.item {program : Bool} {v out : Value} {t t₁ : Trail Memory} (hn : v.isNode = true)
    (hload : (program && Statement.loads v) = false)
    (h : Advanced keepComments (.under program) v.pending v out t t₁) :
    AdvancedItems keepComments program [v] [out] false t t₁ := by
  have hpend : pendingItems program [v] = v.pending := by
    rw [pendingItems, if_pos hn, if_neg (by rw [hload]; exact Bool.false_ne_true), List.nil_append]
    exact List.append_nil _
  have hself : [out].map (Value.refresh t₁.revisions) = [v.refresh t₁.revisions] := by
    rw [List.map_singleton, h.same]
  refine ⟨?_, ?_, nofun, fun _ => hself⟩
  · rw [hpend, hself, marksItems_cons, marksItems_nil, List.append_nil, marksItems_cons, marksItems_nil,
      List.append_nil]
    exact h.moved
  · rw [hself]
    exact @Steps.item keepComments program 0 [] [] _ _ ((isNode_erase v).trans hn) h.steps

/-- A candidate of a program gives way to its pieces. -/
theorem AdvancedPieces.item {v kind : Value} {r : Replacement} {ps : List Piece} {out : List Value}
    {t t' t₁ : Trail Memory} (hopen : Statement.Opened keepComments v r kind ps t t') (ht : t.Sound)
    (hr : t.Ready v.pending v.marks)
    (h : AdvancedPieces keepComments (pendingSlot false kind ++ ps.flatMap fun p => pendingFields false p.fields)
      kind ps out t' t₁) : AdvancedItems keepComments true [v] out true t t₁ := by
  have hn := Statement.isNode_of_loads hopen.loads
  have hle := hopen.parted.le
  refine ⟨⟨Nat.le_trans hle h.moved.next_le, ?_, fun m hm => ?_⟩, ?_, fun _ => ?_, nofun⟩
  · rw [← hopen.revisions]
    exact h.moved.revised.mono fun m hm => mem_pendingItems List.mem_cons_self hn (hopen.parted.mem_pending hm)
  · have hle' := h.moved.next_le
    rw [marksItems_cons, marksItems_nil, List.append_nil]
    rcases h.moved.origin m hm with hin | hnew
    · exact (hopen.parted.mem_marks (fun k hk => (hr.bounded k hk).1) ht.pos hin).imp id fun hfresh => by omega
    · exact .inr (by omega)
  · have hfirst : Lift.Step keepComments (.under true) (.list 0 ([] ++ v.erase :: []))
        (.list 0 ([] ++ (r.erase.nodes ++ []))) := by
      refine .splice (by rw [Statement.loads_erase, hopen.loads]) ?_
      rw [Statement.split_erase, hopen.split]
      rfl
    have herase : r.erase.nodes = ps.map fun p => (p.value kind).erase := hopen.nodes_erase
    rw [List.nil_append, List.nil_append, List.append_nil, herase] at hfirst
    refine .head hfirst (Steps.items ?_)
    rw [h.same, List.map_map]
    refine List.forall₂_map_left_iff.mpr (List.forall₂_map_right_iff.mpr (List.forall₂_same.mpr fun p hp => ⟨?_, ?_⟩))
    · obtain ⟨type, _, hA⟩ := (hopen.parted.placed p hp).node kind
      rw [isNode_erase]
      exact isNode_of_isA hA
    · exact h.steps p hp
  · rw [List.any_cons, hopen.loads]
    rfl

/-! ## The pass -/

namespace Lift

variable (keepComments) in
/-- What the pass achieves, however it ends. -/
def Stage.Advances : (stage : Stage) → Trail Memory → Walked Memory stage.task.Result → Prop
  | .children v, t, w => ∀ place, place = .root ∨ v.isNode = true →
    Advanced keepComments place v.pending v w.value t w.trail
  | .fields program _ _ todo, t, w => AdvancedFields keepComments program todo w.value t w.trail
  | .slot program _ key v, t, w => Advanced keepComments (.under program)
      (if Syntax.metadataKeys.contains key then [] else pendingSlot program v) v w.value t w.trail
  | .items program _ done todo, t, w => ∃ out, w.value = done ++ out ∧
      AdvancedItems keepComments program todo out w.edited t w.trail
  | .pieces kind ps, t, w => AdvancedPieces keepComments
      (pendingSlot false (t.current kind) ++ ps.flatMap fun p => pendingFields false p.fields) (t.current kind) ps
      w.value t w.trail

variable {category : Value} {n : Nat} {stage : Stage} {t t' t₁ : Trail Memory} {qs : List Question}

namespace Stage.Walkable

/-- The walk stopped before it got to anything. -/
theorem advances_idle (hw : stage.Walkable t) {fault : Option Fault} :
    stage.Advances keepComments t ⟨stage.task.given, false, fault, t⟩ := by
  cases stage with
  | children v => exact fun place _ => .idle hw.2.1 hw.2.2.1 rfl (Nat.le_refl _)
  | fields program mark done todo => exact .idle hw.2.1 hw.2.2.1
  | slot program owner key v => exact .idle hw.2.1 hw.2.2.1 rfl (Nat.le_refl _)
  | items program owner done todo => exact ⟨todo, rfl, .idle hw.2.1 hw.2.2.1 rfl (Nat.le_refl _)⟩
  | pieces kind ps => exact .idle hw.1 hw.2.2.2.1

/-- The walk stopped in the first field, and the others are as they were. -/
theorem advances_fieldStop {program : Bool} {mark : Nat} {done rest : Fields} {key : String} {v out : Value}
    (hw : (Stage.fields program mark done ((key, v) :: rest)).Walkable t)
    (h : Advanced keepComments (.under program)
      (if Syntax.metadataKeys.contains key then [] else pendingSlot program v) v out t t₁) :
    AdvancedFields keepComments program ((key, v) :: rest) ((key, out) :: rest) t t₁ := by
  obtain ⟨_, ht, hs, hr⟩ := hw
  have hready := hr
  rw [pendingFields, marksFields_cons] at hready
  have ht₁ := h.moved.sound ht fun m hm => by
    split at hm
    · exact absurd hm List.not_mem_nil
    · exact (hready.left.bounded m (mem_marks_of_pendingSlot program v hm)).2
  exact .cons hr (hs _ List.mem_cons_self) h (.idle ht₁ (h.settled_fields hr (List.forall_mem_cons.mp hs).2))

variable {program : Bool} {owner : List Value → Value} {done rest out : List Value} {v : Value} {edited : Bool}

/-- The walk stopped in the first item, and the others are as they were. -/
theorem advances_itemStop {fault : Option Fault} (hw : (Stage.items program owner done (v :: rest)).Walkable t)
    (hfirst : AdvancedItems keepComments program [v] out edited t t₁) :
    (Stage.items program owner done (v :: rest)).Advances keepComments t ⟨done ++ (out ++ rest), edited, fault, t₁⟩ := by
  obtain ⟨_, ht, hs, hr, _⟩ := hw
  have hready : t.Ready (pendingItems program [v]) (marksItems [v]) := by
    refine hr.sub (fun m hm => ?_) fun m => ?_
    · rw [← List.singleton_append, pendingItems_append]
      exact List.mem_append_left _ hm
    · rw [marksItems_cons, marksItems_nil, List.append_nil, marksItems_cons, List.count_append]
      exact Nat.le_add_right _ _
  have ht₁ := hfirst.moved.sound ht fun m hm => (hready.bounded m (mem_marks_of_pendingItems program [v] hm)).2
  have hrest := AdvancedItems.cons hr hfirst
    (.idle ht₁ (hfirst.settled_rest hr (List.forall_mem_cons.mp hs).2) rfl (Nat.le_refl _))
  rw [Bool.or_false] at hrest
  exact ⟨out ++ rest, rfl, hrest⟩

/-- One item, and then the others. -/
theorem advances_cons {later : Walked Memory (List Value)}
    (hw : (Stage.items program owner done (v :: rest)).Walkable t)
    (hfirst : AdvancedItems keepComments program [v] out edited t t₁)
    (hlater : (Stage.items program owner (done ++ out) rest).Advances keepComments t₁ later) :
    (Stage.items program owner done (v :: rest)).Advances keepComments t
      { later with edited := edited || later.edited } := by
  obtain ⟨_, _, _, hr, _⟩ := hw
  obtain ⟨outs, hvalue, hrest⟩ := hlater
  exact ⟨out ++ outs, by rw [hvalue, List.append_assoc], .cons hr hfirst hrest⟩

/-- An item that is kept, and walked through. -/
theorem advances_keep {out : Value} (hw : (Stage.items program owner done (v :: rest)).Walkable t)
    (hnode : v.isNode = true)
    (hask : (visitor category keepComments).ask v (some (owner (done ++ v :: rest))) t = (.ok .keep, t'))
    (h : Advanced keepComments (.under program) v.pending v out t' t₁) :
    AdvancedItems keepComments program [v] [out] false t t₁ := by
  obtain ⟨hrev, hle⟩ := Visitor.ask_keeps hask
  exact Advanced.item hnode (hw.not_loads hask) ⟨h.moved.after hrev hle, h.same, h.steps⟩

/-- An item that is replaced by its pieces, which are walked through. -/
theorem advances_splice {r : Replacement} {kind : Value} {ps : List Piece} {w : Walked Memory (List Value)}
    (hw : (Stage.items true owner done (v :: rest)).Walkable t)
    (hopen : Statement.Opened keepComments v r kind ps t t')
    (h : (Stage.pieces kind ps).Advances keepComments t' w) :
    AdvancedItems keepComments true [v] w.value true t w.trail := by
  have hpieces : AdvancedPieces keepComments _ (t'.current kind) ps w.value t' w.trail := h
  rw [hw.current_opened hopen] at hpieces
  obtain ⟨_, ht, _, hr, _⟩ := hw
  exact hpieces.item hopen ht (Walk.item_ready (Statement.isNode_of_loads hopen.loads) hr)

variable {kind : Value} {p : Piece} {others : List Piece}

/-- Pieces are nodes. -/
theorem pieces_isNode {ps : List Piece} (hw : (Stage.pieces kind ps).Walkable t) :
    ∀ q ∈ ps, ∀ k, (q.value k).isNode = true := by
  obtain ⟨_, hnode, _, _, _⟩ := hw
  intro q hq k
  obtain ⟨type, _, hA⟩ := hnode q hq k
  exact isNode_of_isA hA

/-- The walk stopped in the first piece, and the others are as they were. -/
theorem advances_pieceStop {out : Value} (hw : (Stage.pieces kind (p :: others)).Walkable t)
    (h : Advanced keepComments (.under true) (p.value (t.current kind)).pending (p.value (t.current kind)) out t t₁) :
    AdvancedPieces keepComments
      (pendingSlot false (t.current kind) ++ (p :: others).flatMap fun p => pendingFields false p.fields)
      (t.current kind) (p :: others) (out :: others.map (Piece.value kind)) t t₁ := by
  have hA := hw.notProgram
  have hnode := hw.pieces_isNode
  obtain ⟨_, _, _, hready⟩ := hw.firstPiece.2
  obtain ⟨ht, _, _, hown, hr⟩ := hw
  rw [List.flatMap_cons] at hr ⊢
  rw [List.map_cons, marksItems_cons] at hr
  have ht₁ := h.moved.sound ht fun m hm => (hready.bounded m (mem_marks_of_pending _ hm)).2
  have hrest := h.own_rest (hA p List.mem_cons_self _) (List.forall_mem_cons.mp hown).2 hr
  exact @AdvancedPieces.cons keepComments p others kind out _ [] t t₁ t₁ ht hA hnode hown hr h (.idle ht₁ hrest) rfl
    (List.forall_mem_nil _)

/-- One piece, and then the others. -/
theorem advances_piece {w : Walked Memory Value} {later : Walked Memory (List Value)}
    (hw : (Stage.pieces kind (p :: others)).Walkable t)
    (hbuilt : Rebuilt category keepComments (p.value (t.current kind)) w.value t w.trail)
    (h : Advanced keepComments (.under true) (p.value (t.current kind)).pending (p.value (t.current kind)) w.value t
      w.trail)
    (hlater : (Stage.pieces kind others).Advances keepComments w.trail later) :
    AdvancedPieces keepComments
      (pendingSlot false (t.current kind) ++ (p :: others).flatMap fun p => pendingFields false p.fields)
      (t.current kind) (p :: others) (w.value :: later.value) t later.trail := by
  have hA := hw.notProgram
  have hnode := hw.pieces_isNode
  obtain ⟨⟨ht₁, _, _, _, _⟩, hkind⟩ := hw.nextPiece hbuilt
  obtain ⟨ht, _, _, hown, hr⟩ := hw
  rw [List.flatMap_cons] at hr ⊢
  rw [List.map_cons, marksItems_cons] at hr
  have hpieces : AdvancedPieces keepComments _ (w.trail.current kind) others later.value w.trail later.trail := hlater
  -- the others edit nothing in the first piece
  have hstill := hpieces.moved.revised.still ht₁.closed fun m hm => by
    rw [← hbuilt.refreshed]
    exact hkind.apart hr hbuilt m hm
  exact .cons ht hA hnode hown hr h hpieces hstill fun m hm => hkind.mem_pending hm

end Stage.Walkable

/-- **The pass makes steps**, however it ends. -/
theorem Passes.advances {w : Walked Memory stage.task.Result} (h : Passes category keepComments n stage t qs w) :
    stage.Advances keepComments t w := by
  induction h with
  | exhausted hw | noFields hw | metadata hw _ | slotOther hw _ _ _ | noPieces hw => exact hw.advances_idle
  | object hw _ _ ih =>
    obtain ⟨_, _, hs, hr⟩ := hw
    exact fun place hplace => ih.object hs hr hplace
  | fieldStop hw _ _ ih => exact hw.advances_fieldStop ih
  | field hw _ _ _ ih ih' =>
    obtain ⟨_, _, hs, hr⟩ := hw
    exact .cons hr (hs _ List.mem_cons_self) ih ih'
  | slotList hw hkey _ ih =>
    obtain ⟨_, _, hs, hr⟩ := hw
    obtain ⟨out, hvalue, hout⟩ := ih
    rw [hkey, if_neg Bool.false_ne_true] at hr
    rw [Stage.Advances, hkey, if_neg Bool.false_ne_true]
    dsimp only
    rw [hvalue, List.nil_append]
    exact hout.list hs hr
  | slotFault hw _ _ hask | slotSplice hw _ _ hask =>
    obtain ⟨_, ht, hs, _⟩ := hw
    obtain ⟨hrev, hle⟩ := Visitor.ask_keeps hask
    exact .idle ht hs hrev hle
  | @slotKeep n program owner key v t t' qs w _ hkey hnode hask _ ih =>
    obtain ⟨hrev, hle⟩ := Visitor.ask_keeps hask
    have hw := ih (.under program) (.inr hnode)
    rw [Stage.Advances, hkey, if_neg Bool.false_ne_true, pendingSlot_node _ hnode]
    exact ⟨hw.moved.after hrev hle, hw.same, hw.steps⟩
  | noItems hw =>
    obtain ⟨_, ht, hs, _, _⟩ := hw
    exact ⟨[], (List.append_nil _).symm, .idle ht hs rfl (Nat.le_refl _)⟩
  | itemOther hw _ _ ih =>
    have hfirst := hw.advances_cons (.idle hw.2.1 (List.forall_mem_singleton.mpr (hw.2.2.1 _ List.mem_cons_self)) rfl
      (Nat.le_refl _)) ih
    rwa [Bool.false_or] at hfirst
  | itemFault hw _ hask =>
    obtain ⟨_, ht, hs, _, _⟩ := hw
    obtain ⟨hrev, hle⟩ := Visitor.ask_keeps hask
    exact ⟨_, rfl, .idle ht hs hrev hle⟩
  | itemKeepStop hw hnode hask _ _ ih =>
    exact hw.advances_itemStop (hw.advances_keep hnode hask (ih (.under _) (.inr hnode)))
  | itemKeep hw hnode hask _ _ _ ih ih' =>
    have hall := hw.advances_cons (hw.advances_keep hnode hask (ih (.under _) (.inr hnode))) ih'
    rwa [Bool.false_or] at hall
  | itemSpliceStop hw _ hopen _ _ ih =>
    rw [List.append_assoc]
    exact hw.advances_itemStop (hw.advances_splice hopen ih)
  | itemSplice hw _ hopen _ _ _ ih ih' =>
    have hall := hw.advances_cons (hw.advances_splice hopen ih) ih'
    rwa [Bool.true_or] at hall
  | pieceStop hw _ _ ih =>
    exact hw.advances_pieceStop (ih (.under true) (.inr (hw.pieces_isNode _ List.mem_cons_self _)))
  | piece hw hchildren hfault _ ih ih' =>
    exact hw.advances_piece (hchildren.achieved hfault)
      (ih (.under true) (.inr (hw.pieces_isNode _ List.mem_cons_self _))) ih'

end Lift

/-- **A pass makes steps.** The tree that it leaves behind, whether it returns or raises, comes from the given one by
candidates of programs giving way to their pieces, one after another. -/
theorem Lift.run_steps (category : Value) (keepComments : Bool) (sink : Diagnostics) {tree : Value}
    (hjson : tree.isJson = true) :
    Steps keepComments .root tree (run category keepComments sink tree).tree.erase := by
  have hplaced : (placed tree).erase = tree := by rw [erase_placed, erase_of_json hjson]
  show Steps keepComments .root tree (walk (visitor category keepComments) (fuel tree) tree ⟨sink, [], []⟩).tree.erase
  rcases walk_cases category keepComments sink tree with ⟨fault, t, _, hwalk⟩ | ⟨t, hask, hwalk⟩
  · rw [hwalk]
    show Steps keepComments .root tree (placed tree).erase
    rw [hplaced]
  · rw [hwalk]
    obtain ⟨qs, h⟩ := (outset_walkable hjson hask).passes category keepComments (fuel tree)
    have hw := h.advances .root (.inl rfl)
    have hsteps := hw.steps
    rw [← hw.same, hplaced] at hsteps
    exact hsteps

end EsmLift
