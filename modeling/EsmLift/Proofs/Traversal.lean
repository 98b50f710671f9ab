import EsmLift.Proofs.Visits

/-!
# `Proofs.Traversal` — what the walk of the pass achieves

One specification for each kind of part of a tree: what the walk returns, if no fault stopped it, is what stood there
brought up to date (`refreshed`), it looks as `Lift.lifted` says (`erased`), and it was visited (`visited`). The
specification of a part follows from those of its own parts.

## Contents

* `Rebuilt`, `Reslotted`, `Refielded`, `Relisted`: what is achieved for an object, the value of a field, fields, items;
* `Refielded.cons`, `Relisted.cons`: one part after another;
* `Refielded.object`, `Relisted.slot`, `Rebuilt.slot`: an object from its fields, and the value of a field.
-/

namespace EsmLift

open Value

variable (category : Value) (keepComments : Bool)

/-- An object was walked through. -/
structure Rebuilt (v out : Value) (t t' : Trail Lift.Memory) : Prop where
  visited : Visited category v.pending v.marks out.marks out.reached t t'
  refreshed : out = v.refresh t'.revisions
  erased : out.erase = Lift.lifted keepComments v.erase

/-- The value of a field was walked through. -/
structure Reslotted (program : Bool) (key : String) (v out : Value) (t t' : Trail Lift.Memory) : Prop where
  visited : ∀ o : Value, o.isA .program = program →
    Visited category (if Syntax.metadataKeys.contains key then [] else pendingSlot program v) v.marks out.marks
      (if Syntax.metadataKeys.contains key then [] else reachedSlot o out) t t'
  refreshed : out = v.refresh t'.revisions
  erased : out.erase
    = if Syntax.metadataKeys.contains key then v.erase else Lift.liftedSlot keepComments program v.erase

/-- Fields of an object were walked through. -/
structure Refielded (program : Bool) (fs out : Fields) (t t' : Trail Lift.Memory) : Prop where
  visited : ∀ o : Value, o.isA .program = program →
    Visited category (pendingFields program fs) (marksFields fs) (marksFields out) (reachedFields o out) t t'
  refreshed : out = fs.map fun f => (f.1, f.2.refresh t'.revisions)
  erased : (out.map fun f => (f.1, f.2.erase)) = fs.map fun f =>
    (f.1, if Syntax.metadataKeys.contains f.1 then f.2.erase
      else Lift.liftedSlot keepComments program f.2.erase)

/-- Items of a list were walked through; `edited` says whether some of them were replaced. -/
structure Relisted (program : Bool) (xs out : List Value) (edited : Bool) (t t' : Trail Lift.Memory) : Prop where
  visited : ∀ o : Value, o.isA .program = program →
    Visited category (pendingItems program xs) (marksItems xs) (marksItems out) (reachedItems o out) t t'
  settled : ∀ x ∈ out, x.Settled t'.revisions
  erased : out.map erase = (xs.map erase).flatMap (Lift.liftedItem keepComments program)
  spliced : edited = true → (program && xs.any Statement.loads) = true
  kept : edited = false → out = xs.map (Value.refresh t'.revisions)

variable {category : Value} {keepComments : Bool}

/-! ## What stays the same -/

namespace Rebuilt

variable {v out : Value} {t t' : Trail Lift.Memory}

theorem isCandidate (h : Rebuilt category keepComments v out t t') :
    Statement.isCandidate out = Statement.isCandidate v := by
  rw [← Statement.isCandidate_erase, h.erased, Lift.isCandidate_lifted, Statement.isCandidate_erase]

theorem isNode (h : Rebuilt category keepComments v out t t') : out.isNode = v.isNode := by
  rw [← isNode_erase, h.erased, Lift.isNode_lifted, isNode_erase]

theorem startLine (h : Rebuilt category keepComments v out t t') : Syntax.startLine out = Syntax.startLine v := by
  rw [← Syntax.startLine_erase, h.erased, Syntax.startLine_lifted, Syntax.startLine_erase]

theorem settled (h : Rebuilt category keepComments v out t t') : out.Settled t'.revisions := by
  rw [h.refreshed]
  exact settled_refresh h.visited.revised.closed v

/-- Nothing is left to be done. -/
theorem pending_eq_nil (h : Rebuilt category keepComments v out t t') : out.pending = [] := by
  apply Value.pending_eq_nil
  intro n hn hload
  obtain ⟨b, hb, hprogram⟩ := h.visited.clean n hn
  rw [Statement.loads, hb] at hload
  exact hprogram hload

end Rebuilt

theorem Reslotted.isText {program : Bool} {key : String} {v out : Value} {t t' : Trail Lift.Memory}
    (h : Reslotted category keepComments program key v out t t') (s : String) : out.isText s = v.isText s := by
  rw [← regular_erase.isText, h.erased]
  split
  · exact regular_erase.isText v s
  · rw [Lift.isText_liftedSlot, regular_erase.isText]

/-- Metadata is passed over. -/
theorem Reslotted.metadata {program : Bool} {key : String} {v : Value} {t : Trail Lift.Memory} (ht : t.Sound)
    (hs : v.Settled t.revisions) (hk : Syntax.metadataKeys.contains key = true) :
    Reslotted category keepComments program key v v t t := by
  refine ⟨fun o _ => ?_, hs.refresh.symm, by rw [if_pos hk]⟩
  rw [if_pos hk, if_pos hk]
  exact .refl ht

theorem Value.erase_ne_list {v : Value} (hl : ∀ m xs, v ≠ .list m xs) (m : Nat) (xs : List Value) :
    v.erase ≠ .list m xs := by
  intro herase
  cases v with
  | list m xs => exact hl m xs rfl
  | tuple xs => rw [erase_tuple] at herase; cases herase
  | object m fs => rw [erase_object] at herase; cases herase
  | _ => cases herase

/-- What is neither a list nor a node is passed over. -/
theorem Reslotted.other {program : Bool} {key : String} {v : Value} {t : Trail Lift.Memory} (ht : t.Sound)
    (hs : v.Settled t.revisions) (hk : Syntax.metadataKeys.contains key = false) (hn : v.isNode = false)
    (hl : ∀ m xs, v ≠ .list m xs) : Reslotted category keepComments program key v v t t := by
  refine ⟨fun o _ => ?_, hs.refresh.symm, ?_⟩
  · rw [hk, if_neg Bool.false_ne_true, if_neg Bool.false_ne_true, reachedSlot_other o hn hl]
    exact .refl ht
  · rw [hk, if_neg Bool.false_ne_true,
      Lift.liftedSlot_other keepComments program (by rw [isNode_erase, hn]) (erase_ne_list hl)]

/-- The type of an object is read off its fields, and what the walk does to a field does not change a text. -/
theorem Walk.isA_update {mark : Nat} {done rest : Fields} {key : String} {v w : Value}
    (h : ∀ s, w.isText s = v.isText s) (t : NodeType) :
    (Value.object mark (done ++ (key, w) :: rest)).isA t = (Value.object mark (done ++ (key, v) :: rest)).isA t := by
  have hlookup (u : Value) : (done ++ (key, u) :: rest : Fields).lookup "type"
      = (done.lookup "type").or (if "type" == key then some u else rest.lookup "type") := by
    rw [List.lookup_append, List.lookup_cons]
    split
    · rename_i heq; rw [heq]; rfl
    · rename_i heq; rw [heq]; rfl
  have htype (u : Value) : (Value.object mark (done ++ (key, u) :: rest)).isA t
      = ((done.lookup "type").or (if "type" == key then some u else rest.lookup "type")).any (·.isText t.tag) := by
    rw [Value.isA_eq, ← hlookup u]
    rfl
  rw [htype, htype]
  cases done.lookup "type" with
  | some u => rfl
  | none =>
    simp only [Option.none_or]
    split
    · exact h t.tag
    · rfl

/-! ## Putting parts together -/

/-- There are programs, and there are others. -/
theorem exists_owner (program : Bool) : ∃ o : Value, o.isA .program = program := by
  cases program with
  | true => exact ⟨.object 0 [("type", NodeType.program.value)], rfl⟩
  | false => exact ⟨.null, rfl⟩

/-- What the walk needs for the fields that follow, once it went through the first one. -/
theorem Reslotted.rest {program : Bool} {mark : Nat} {done fs : Fields} {key : String} {v out : Value}
    {t t₁ : Trail Lift.Memory} (h : Reslotted category keepComments program key v out t t₁)
    (hprogram : (Value.object mark (done ++ (key, v) :: fs)).isA .program = program) (ht : t.Sound)
    (hs : ∀ g ∈ fs, g.2.Settled t.revisions)
    (hr : t.Ready (pendingFields program ((key, v) :: fs)) (marksFields ((key, v) :: fs))) :
    t₁.Sound ∧ (∀ g ∈ fs, g.2.Settled t₁.revisions) ∧ t₁.Ready (pendingFields program fs) (marksFields fs) ∧
      (Value.object mark ((done ++ [(key, out)]) ++ fs)).isA .program = program := by
  rw [pendingFields, marksFields_cons] at hr
  obtain ⟨o₀, ho₀⟩ := exists_owner program
  have hvisited := h.visited o₀ ho₀
  have hpend (m : Nat) (hm : m ∈ if Syntax.metadataKeys.contains key then [] else pendingSlot program v) :
      m ∈ v.marks := by
    split at hm
    · exact absurd hm List.not_mem_nil
    · exact mem_marks_of_pendingSlot program v hm
  refine ⟨hvisited.sound ht fun m hm => (hr.left.bounded m (hpend m hm)).2, ?_, hr.right.later hvisited.next_le, ?_⟩
  · -- the first field edited nothing in the others
    intro g hg
    refine hvisited.revised.keep _ (hs g hg) fun m hmg hm => ?_
    exact hr.disjoint (List.mem_append_left _ hm) (hpend m hm) (List.mem_flatMap.mpr ⟨g, hg, hmg⟩)
  · rw [List.append_assoc]
    exact (Walk.isA_update (fun s => h.isText s) .program).trans hprogram

/-- No fields at all. -/
theorem Refielded.nil {program : Bool} {t : Trail Lift.Memory} (ht : t.Sound) :
    Refielded category keepComments program [] [] t t :=
  ⟨fun _ _ => .refl ht, rfl, rfl⟩

/-- One field, and then the others. -/
theorem Refielded.cons {program : Bool} {key : String} {v out : Value} {fs outs : Fields}
    {t t₁ t₂ : Trail Lift.Memory} (ht₁ : t₁.Sound) (hr : t.Ready (pendingFields program ((key, v) :: fs))
      (marksFields ((key, v) :: fs))) (h₁ : Reslotted category keepComments program key v out t t₁)
    (h₂ : Refielded category keepComments program fs outs t₁ t₂) :
    Refielded category keepComments program ((key, v) :: fs) ((key, out) :: outs) t t₂ := by
  rw [pendingFields, marksFields_cons] at hr
  obtain ⟨o₀, ho₀⟩ := exists_owner program
  have hsep := (h₁.visited o₀ ho₀).apart hr fun m => mem_marks_of_pendingFields program fs
  refine ⟨fun o ho => ?_, ?_, ?_⟩
  · rw [pendingFields, marksFields_cons, marksFields_cons, reachedFields]
    exact (h₁.visited o ho).trans (h₂.visited o ho) hsep (fun m => List.mem_append_left _)
      (fun m => List.mem_append_right _) (fun m => List.mem_append_left _)
      fun m hm => .inl (List.mem_append_right _ hm)
  · rw [List.map_cons, ← h₂.refreshed, ← (h₂.visited o₀ ho₀).still ht₁ h₁.refreshed hsep]
  · rw [List.map_cons, List.map_cons, h₁.erased, h₂.erased]

/-- No items at all. -/
theorem Relisted.nil {program : Bool} {t : Trail Lift.Memory} (ht : t.Sound) :
    Relisted category keepComments program [] [] false t t :=
  ⟨fun _ _ => .refl ht, fun _ hx => absurd hx List.not_mem_nil, rfl,
    fun h => absurd h Bool.false_ne_true, fun _ => rfl⟩

/-- One item, and then the others. -/
theorem Relisted.cons {program : Bool} {v : Value} {xs out outs : List Value} {edited edited' : Bool}
    {t t₁ t₂ : Trail Lift.Memory} (ht₁ : t₁.Sound) (hr : t.Ready (pendingItems program (v :: xs))
      (marksItems (v :: xs))) (h₁ : Relisted category keepComments program [v] out edited t t₁)
    (h₂ : Relisted category keepComments program xs outs edited' t₁ t₂) :
    Relisted category keepComments program (v :: xs) (out ++ outs) (edited || edited') t t₂ := by
  have hpend : pendingItems program (v :: xs) = pendingItems program [v] ++ pendingItems program xs :=
    pendingItems_append program [v] xs
  have hmarks : marksItems (v :: xs) = marksItems [v] ++ marksItems xs := marksItems_append [v] xs
  rw [hpend, hmarks] at hr
  obtain ⟨o₀, ho₀⟩ := exists_owner program
  have hsep := (h₁.visited o₀ ho₀).apart hr fun m => mem_marks_of_pendingItems program xs
  -- what the first item left behind stays settled, because the others edit nothing in it
  have hsepOne (x : Value) (hx : x ∈ out) (m : Nat) (hm : m ∈ pendingItems program xs) : m ∉ x.marks :=
    fun hmx => hsep m hm (List.mem_flatMap.mpr ⟨x, hx, hmx⟩)
  refine ⟨fun o ho => ?_, fun x hx => ?_, ?_, fun he => ?_, fun he => ?_⟩
  · rw [hpend, hmarks, marksItems_append, reachedItems_append]
    exact (h₁.visited o ho).trans (h₂.visited o ho) hsep (fun m => List.mem_append_left _)
      (fun m => List.mem_append_right _) (fun m => List.mem_append_left _)
      fun m hm => .inl (List.mem_append_right _ hm)
  · rcases List.mem_append.mp hx with hx | hx
    · exact (h₂.visited o₀ ho₀).revised.keep x (h₁.settled x hx) fun m hmx hm => hsepOne x hx m hm hmx
    · exact h₂.settled x hx
  · rw [List.map_append, h₁.erased, h₂.erased, ← List.flatMap_append, ← List.map_append]
    rfl
  · rw [List.any_cons]
    rcases Bool.or_eq_true_iff.mp he with he | he
    · have h := h₁.spliced he
      simp only [List.any_cons, List.any_nil, Bool.or_false, Bool.and_eq_true] at h
      rw [h.1, h.2]
      rfl
    · have h := h₂.spliced he
      simp only [Bool.and_eq_true] at h
      rw [h.1, h.2, Bool.or_true]
      rfl
  · obtain ⟨he₁, he₂⟩ := Bool.or_eq_false_iff.mp he
    have hout : out = [v.refresh t₁.revisions] := h₁.kept he₁
    subst hout
    have hstill := (h₂.visited o₀ ho₀).still ht₁ rfl (hsepOne _ List.mem_cons_self)
    rw [h₂.kept he₂, List.map_cons, ← hstill]
    rfl

/-! ## From parts to the whole -/

/-- What the walk needs for the fields of an object. -/
theorem Trail.Ready.fields {mark : Nat} {fs : Fields} {t : Trail Lift.Memory}
    (hr : t.Ready (Value.object mark fs).pending (Value.object mark fs).marks) :
    t.Ready (pendingFields ((Value.object mark fs).isA .program) fs) (marksFields fs) := by
  rw [pending, marks_object] at hr
  exact hr.sub (fun m hm => hm) fun m => by rw [List.count_cons]; exact Nat.le_add_right _ _

/-- What the walk needs for the items of a list. -/
theorem Trail.Ready.items {program : Bool} {mark : Nat} {xs : List Value} {t : Trail Lift.Memory}
    (hr : t.Ready (pendingSlot program (.list mark xs)) (Value.list mark xs).marks) :
    t.Ready (pendingItems program xs) (marksItems xs) := by
  rw [pendingSlot, marks_list] at hr
  refine hr.sub (fun m => List.mem_append_right _) fun m => ?_
  rw [List.count_cons]
  exact Nat.le_add_right _ _

/-- An object, once its fields are walked through. -/
theorem Refielded.object {mark : Nat} {fs out : Fields} {t t' : Trail Lift.Memory}
    (hs : (Value.object mark fs).Settled t.revisions)
    (hr : t.Ready (Value.object mark fs).pending (Value.object mark fs).marks)
    (h : Refielded category keepComments ((Value.object mark fs).isA .program) fs out t t') :
    Rebuilt category keepComments (.object mark fs) (.object mark out) t t' := by
  rw [pending, marks_object] at hr
  -- the mark of the object itself is not pending below it
  have hmark : mark ∉ pendingFields ((Value.object mark fs).isA .program) fs := by
    intro hm
    exact hr.head_not_mem hm (mem_marks_of_pendingFields _ fs hm)
  have herased : (Value.object mark out).erase = Lift.lifted keepComments (Value.object mark fs).erase := by
    have hA := regular_erase.isA (.object mark fs) .program
    rw [erase_object] at hA
    rw [erase_object, erase_object, Lift.lifted_object, hA, h.erased, List.map_map]
    rfl
  have hprogram : (Value.object mark out).isA .program = (Value.object mark fs).isA .program := by
    rw [← regular_erase.isA, herased, Lift.isA_lifted, regular_erase.isA]
  have hvisited := h.visited (.object mark out) hprogram
  refine ⟨?_, ?_, herased⟩
  · rw [pending, marks_object, marks_object, reached]
    exact hvisited.mono (fun m hm => hm) (fun m => List.mem_cons_of_mem _) (fun m => List.mem_cons_of_mem _)
      fun m hm => (List.mem_cons.mp hm).elim (fun h => .inr (List.mem_cons.mpr (.inl h))) .inl
  · have hparts := hvisited.revised.refresh_parts hs hmark
    rw [refreshParts, ← h.refreshed] at hparts
    exact hparts.symm

/-- An object that is asked about and kept, and walked through. -/
theorem Rebuilt.asked {v out o : Value} {owner : Option Value} {t t' t₁ : Trail Lift.Memory} {program : Bool}
    (howner : Lift.isProgram owner = program) (ho : o.isA .program = program)
    (hask : (Lift.visitor category keepComments).ask v owner t = (.ok .keep, t'))
    (h : Rebuilt category keepComments v out t' t₁) :
    Visited category v.pending v.marks out.marks ((o, out) :: out.reached) t t₁ ∧
      (program && Statement.loads v) = false := by
  rcases Lift.ask_cases category keepComments v owner t with
    ⟨fault, t'', hcase⟩ | ⟨hc, hcase⟩ | ⟨hc, hp, sink, hwarn, hcase⟩ | ⟨hc, hp, r, hsplit, hcase⟩
  · rw [hask] at hcase
    cases hcase
  · -- no candidate
    rw [hask] at hcase
    obtain rfl : t' = t := (Prod.mk.inj hcase).2
    refine ⟨h.visited.enter (h.isCandidate.trans hc) h.settled, ?_⟩
    rw [Statement.loads, hc, Bool.and_false]
  · -- a candidate that no program owns
    rw [hask] at hcase
    have hprogram : program = false := howner.symm.trans hp
    refine ⟨?_, by rw [hprogram, Bool.false_and]⟩
    refine h.visited.reject (Prod.mk.inj hcase).2 (h.isCandidate.trans hc) (ho.trans hprogram) h.settled
      h.refreshed.symm ?_
    rw [Diagnostics.warn_congr h.startLine]
    exact hwarn
  · rw [hask] at hcase
    cases hcase

/-- A list, once its items are walked through. If some were replaced, the new ones are kept under its mark. -/
theorem Relisted.list {program : Bool} {mark : Nat} {xs out : List Value} {edited : Bool} {t t₁ : Trail Lift.Memory}
    (ht₁ : t₁.Sound) (hs : (Value.list mark xs).Settled t.revisions)
    (hr : t.Ready (pendingSlot program (.list mark xs)) (Value.list mark xs).marks)
    (h : Relisted category keepComments program xs out edited t t₁) :
    let t₂ := if edited then t₁.recordList mark out else t₁
    (∀ o : Value, o.isA .program = program → Visited category (pendingSlot program (.list mark xs))
      (Value.list mark xs).marks (Value.list mark out).marks (reachedItems o out) t t₂) ∧
      Value.list mark out = (Value.list mark xs).refresh t₂.revisions := by
  intro t₂
  rw [pendingSlot, marks_list] at hr
  rw [pendingSlot, marks_list, marks_list]
  have hmark := hr.bounded mark List.mem_cons_self
  have hwiden (m : Nat) (hm : m ∈ pendingItems program xs) :
      m ∈ (if program && xs.any Statement.loads then [mark] else []) ++ pendingItems program xs :=
    List.mem_append_right _ hm
  cases hedited : edited with
  | false =>
    have ht₂ : t₂ = t₁ := if_neg (by rw [hedited]; exact Bool.false_ne_true)
    rw [ht₂]
    have hmarkOut : mark ∉ pendingItems program xs := fun hm =>
      hr.head_not_mem (hwiden mark hm) (mem_marks_of_pendingItems _ xs hm)
    refine ⟨fun o ho => ?_, ?_⟩
    · exact (h.visited o ho).mono hwiden (fun m => List.mem_cons_of_mem _) (fun m => List.mem_cons_of_mem _)
        fun m hm => (List.mem_cons.mp hm).elim (fun h => .inr (List.mem_cons.mpr (.inl h))) .inl
    · obtain ⟨o₀, ho₀⟩ := exists_owner program
      rw [(h.visited o₀ ho₀).revised.refresh_parts hs hmarkOut, refreshParts, ← h.kept hedited]
  | true =>
    have ht₂ : t₂ = t₁.recordList mark out := if_pos hedited
    rw [ht₂]
    have hself : mark ∈ (if program && xs.any Statement.loads then [mark] else []) := by
      rw [if_pos (h.spliced hedited)]
      exact List.mem_cons_self
    -- the list is pending itself, so neither the old items nor the new ones hold it
    have hout : mark ∉ marksItems out := by
      intro hm
      obtain ⟨o₀, ho₀⟩ := exists_owner program
      rcases (h.visited o₀ ho₀).origin mark hm with hin | hnew
      · exact hr.head_not_mem (List.mem_append_left _ hself) hin
      · omega
    refine ⟨fun o ho => ?_, ?_⟩
    · have hrecord : Visited category [mark] [] [] [] t₁ (t₁.recordList mark out) :=
        .record ht₁ hmark.1 h.settled hout
      have hboth := (h.visited o ho).trans hrecord
        (fun m hm => by rw [List.mem_singleton.mp hm]; exact hout) hwiden
        (fun m hm => List.mem_append_left _ (by rw [List.mem_singleton.mp hm]; exact hself))
        (fun m hm => List.mem_cons_of_mem mark hm) fun m hm => absurd hm List.not_mem_nil
      rw [List.append_nil, List.append_nil] at hboth
      exact hboth.mono (fun m hm => hm) (fun m hm => hm) (fun m => List.mem_cons_of_mem _)
        fun m hm => (List.mem_cons.mp hm).elim (fun h => .inr (List.mem_cons.mpr (.inl h))) .inl
    · have hlookup := (Revised.recordList ht₁.closed hmark.1 h.settled hout).2
      rw [Value.refresh, Trail.recordList, hlookup, Option.getD_some]

/-- The value of a field that is a list. -/
theorem Relisted.slot {program : Bool} {key : String} {mark : Nat} {xs out : List Value} {edited : Bool}
    {t t₁ : Trail Lift.Memory} (hk : Syntax.metadataKeys.contains key = false) (ht : t.Sound)
    (hs : (Value.list mark xs).Settled t.revisions)
    (hr : t.Ready (pendingSlot program (.list mark xs)) (Value.list mark xs).marks)
    (h : Relisted category keepComments program xs out edited t t₁) :
    Reslotted category keepComments program key (.list mark xs) (.list mark out) t
      (if edited then t₁.recordList mark out else t₁) := by
  obtain ⟨o₀, ho₀⟩ := exists_owner program
  have ht₁ := (h.visited o₀ ho₀).sound ht fun m hm => (hr.items.bounded m (mem_marks_of_pendingItems _ xs hm)).2
  have hlist := h.list ht₁ hs hr
  refine ⟨fun o ho => ?_, hlist.2, ?_⟩
  · rw [hk, if_neg Bool.false_ne_true, if_neg Bool.false_ne_true, reachedSlot]
    exact hlist.1 o ho
  · rw [hk, if_neg Bool.false_ne_true, erase_list, erase_list, Lift.liftedSlot_list, h.erased]

/-- The value of a field that is a node, and is kept. -/
theorem Rebuilt.slot {program : Bool} {key : String} {v out owner : Value} {t t' t₁ : Trail Lift.Memory}
    (hk : Syntax.metadataKeys.contains key = false) (hn : v.isNode = true) (howner : owner.isA .program = program)
    (hask : (Lift.visitor category keepComments).ask v (some owner) t = (.ok .keep, t'))
    (h : Rebuilt category keepComments v out t' t₁) : Reslotted category keepComments program key v out t t₁ := by
  have hprogram : Lift.isProgram (some owner) = program := howner
  refine ⟨fun o ho => ?_, h.refreshed, ?_⟩
  · rw [hk, if_neg Bool.false_ne_true, if_neg Bool.false_ne_true, pendingSlot_node program hn,
      reachedSlot_node o (h.isNode.trans hn)]
    exact (h.asked hprogram ho hask).1
  · rw [hk, if_neg Bool.false_ne_true, Lift.liftedSlot_node keepComments program (by rw [isNode_erase, hn])]
    exact h.erased

end EsmLift
