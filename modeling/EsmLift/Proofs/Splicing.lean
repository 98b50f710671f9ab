import EsmLift.Proofs.Traversal

/-!
# `Proofs.Splicing` — statements taken out of a list and pieces put in

The one thing shared between statements that are walked through one after another is the kind of a declaration that
was split. The first plain piece lifts it for all of them, and the others find nothing left to do in it
(`Piece.kind_after`). In the list a candidate is found by its mark, which occurs once.

## Contents

* `Repieced`, `KindAfter`, `Piece.kind_after`, `Repieced.cons`: pieces, one after another;
* `Replacement.locate_append`: a statement is found where it stands;
* `Statement.Opened`, `Statement.Opened.walkable`: a candidate that is replaced, and its pieces;
* `Walk.relisted_other`, `Walk.relisted_keep`, `Walk.relisted_splice`: one item, for each way it can go.
-/

namespace EsmLift

open Value

/-! ## Pieces with a common kind -/

variable (category : Value) (keepComments : Bool)

/-- New statements were walked through, pieces with the common kind `kind`. -/
structure Repieced (kind : Value) (ps : List Piece) (out : List Value) (t t' : Trail Lift.Memory) : Prop where
  visited : ∀ o : Value, Visited category
    (pendingSlot false kind ++ ps.flatMap fun p => pendingFields false p.fields)
    (kind.marks ++ marksItems (ps.map Piece.own)) (marksItems out) (reachedItems o out) t t'
  settled : ∀ x ∈ out, x.Settled t'.revisions
  erased : out.map erase = ps.map fun p => Lift.lifted keepComments (p.value kind).erase

variable {category : Value} {keepComments : Bool}

/-- The kind that a piece leaves to the pieces that follow: `kind` before the walk through it, `kind'` after. -/
structure KindAfter (keepComments : Bool) (p : Piece) (kind kind' : Value) (t t' : Trail Lift.Memory) : Prop where
  marks : ∀ m ∈ kind'.marks, m ∈ kind.marks ∨ m ∈ p.own.marks ∨ t.next ≤ m ∧ m < t'.next
  pending : pendingSlot false kind' = [] ∨ kind' = kind ∧ p.plain = false
  same : p.plain = false → kind' = kind
  lifted : Lift.liftedSlot keepComments false kind'.erase = Lift.liftedSlot keepComments false kind.erase

namespace Piece

variable {p : Piece} {kind : Value} {R : Revisions}

/-- What is below a piece: its own parts, and the kind if it is plain. -/
theorem mem_marks_value {m : Nat} (h : m ∈ (p.value kind).marks) :
    m ∈ p.own.marks ∨ p.plain = true ∧ m ∈ kind.marks := by
  rw [value, marks_object, marksFields_append] at h
  rw [own, marks_object]
  rcases List.mem_cons.mp h with rfl | h
  · exact .inl List.mem_cons_self
  · rcases List.mem_append.mp h with h | h
    · unfold head at h
      split at h
      · rename_i hp
        have hk : m ∈ kind.marks := by simpa [NodeType.value, marks_leaf (v := .text _) rfl] using h
        exact .inr ⟨hp, hk⟩
      · exact absurd h List.not_mem_nil
    · exact .inl (List.mem_cons_of_mem _ h)

theorem mem_marks_kind (hp : p.plain = true) {m : Nat} (hm : m ∈ kind.marks) : m ∈ (p.value kind).marks := by
  rw [value, marks_object, marksFields_append]
  refine List.mem_cons_of_mem _ (List.mem_append_left _ ?_)
  unfold head
  rw [if_pos hp]
  simpa [NodeType.value, marks_leaf (v := .text _) rfl] using hm

theorem count_marks_value (m : Nat) : (p.value kind).marks.count m
    = (if p.plain then kind.marks.count m else 0) + p.own.marks.count m := by
  have hhead : (marksFields (p.head kind)).count m = if p.plain then kind.marks.count m else 0 := by
    unfold head
    split
    · simp [NodeType.value, marks_leaf (v := .text _) rfl]
    · rfl
  rw [value, own, marks_object, marks_object, marksFields_append, List.count_cons, List.count_cons, List.count_append,
    hhead, Nat.add_assoc]

theorem count_marks_value_le (m : Nat) : (p.value kind).marks.count m ≤ kind.marks.count m + p.own.marks.count m := by
  rw [count_marks_value]
  split <;> omega

theorem pending_value (hp : (p.value kind).isA .program = false) :
    (p.value kind).pending = (if p.plain then pendingSlot false kind else []) ++ pendingFields false p.fields := by
  have hpend : (p.value kind).pending = pendingFields false (p.head kind ++ p.fields) := by
    rw [← hp]
    rfl
  rw [hpend, pendingFields_append]
  unfold head
  split
  · show ([] ++ (pendingSlot false kind ++ [])) ++ _ = _
    rw [List.append_nil, List.nil_append]
  · rfl

theorem pending_value_subset (hp : (p.value kind).isA .program = false) {m : Nat} (hm : m ∈ (p.value kind).pending) :
    m ∈ pendingSlot false kind ++ pendingFields false p.fields := by
  rw [pending_value hp] at hm
  rcases List.mem_append.mp hm with hm | hm
  · split at hm
    · exact List.mem_append_left _ hm
    · exact absurd hm List.not_mem_nil
  · exact List.mem_append_right _ hm

/-- The parts of a piece that are up to date leave only the kind to be brought up to date. -/
theorem refreshParts_value (R : Revisions) (p : Piece) (kind : Value) :
    (p.value kind).refreshParts R
      = .object p.mark (p.head (kind.refresh R) ++ p.fields.map fun f => (f.1, f.2.refresh R)) := by
  rw [value, Value.refreshParts, List.map_append]
  unfold head
  split <;> rfl

theorem refresh_value (hs : p.own.Settled R) (hl : R.lookup p.mark = none) :
    (p.value kind).refresh R = p.value (kind.refresh R) := by
  have hfields : (p.fields.map fun f => (f.1, f.2.refresh R)) = p.fields :=
    Fields.map_self (g := fun _ v => v.refresh R) fun f hf => ((settled_object.mp hs).2 f hf).refresh
  have hparts : (p.value kind).refresh R = (R.lookup p.mark).getD ((p.value kind).refreshParts R) :=
    Value.refresh_eq_parts R (p.value kind)
  rw [hparts, hl, Option.getD_none, refreshParts_value, hfields]
  rfl

/-- A piece with another kind is lifted alike, if the kind is. -/
theorem lifted_value_congr {keepComments : Bool} {kind' : Value} (hp : (p.value kind).isA .program = false)
    (hp' : (p.value kind').isA .program = false)
    (h : Lift.liftedSlot keepComments false kind.erase = Lift.liftedSlot keepComments false kind'.erase) :
    Lift.lifted keepComments (p.value kind).erase = Lift.lifted keepComments (p.value kind').erase := by
  have hunfold (k : Value) (hk : (p.value k).isA .program = false) :
      Lift.lifted keepComments (p.value k).erase = .object 0 (((p.head k ++ p.fields).map fun f =>
        (f.1, if Syntax.metadataKeys.contains f.1 then f.2.erase
          else Lift.liftedSlot keepComments false f.2.erase))) := by
    have hA := regular_erase.isA (p.value k) .program
    rw [value, erase_object] at hA
    rw [value, erase_object, Lift.lifted_object, hA, ← value, hk, List.map_map]
    rfl
  rw [hunfold kind hp, hunfold kind' hp', List.map_append, List.map_append]
  have hkey : Syntax.metadataKeys.contains "kind" = false := by decide
  unfold head
  split
  · simp only [List.map_cons, hkey, Bool.false_eq_true, if_false, h]
  · rfl

theorem get?_kind (hp : p.plain = true) : (p.value kind).get? "kind" = some kind := by
  have hlookup : (p.head kind ++ p.fields).lookup "kind" = some kind := by
    unfold head
    rw [if_pos hp]
    rfl
  exact hlookup

/-- The kind in a lifted piece is the lifted kind. -/
theorem get?_kind_lifted {keepComments : Bool} (hA : (p.value kind).isA .program = false) (hp : p.plain = true) :
    (Lift.lifted keepComments (p.value kind).erase).get? "kind"
      = some (Lift.liftedSlot keepComments false kind.erase) := by
  have hAe := (regular_erase.isA (p.value kind) .program).trans hA
  have hget := get?_erase (p.value kind) "kind"
  rw [get?_kind hp] at hget
  rw [value, erase_object] at hAe hget ⊢
  rw [Lift.lifted_object, hAe]
  show List.lookup _ _ = _
  rw [Lift.lookup_lifted]
  exact congrArg (Option.map _) hget

/-- The mark of a piece is not pending below it. -/
theorem mark_not_pending {t : Trail Lift.Memory}
    (hr : t.Ready (pendingSlot false kind ++ pendingFields false p.fields) (kind.marks ++ p.own.marks)) :
    p.mark ∉ pendingSlot false kind ++ pendingFields false p.fields := by
  intro hm
  have hown : p.mark ∈ p.own.marks := by rw [own, marks_object]; exact List.mem_cons_self
  rcases List.mem_append.mp hm with hk | hf
  · exact hr.disjoint hm (mem_marks_of_pendingSlot false kind hk) hown
  · have hle := hr.once p.mark hm
    have hpos := List.count_pos_iff.mpr (mem_marks_of_pendingFields false p.fields hf)
    rw [own, marks_object, List.count_append, List.count_cons_self] at hle
    omega

/-- An import edits only its own parts, and the kind is none of them. -/
theorem kind_of_import {t : Trail Lift.Memory} {R : Revisions} (hA : (p.value kind).isA .program = false)
    (hplain : p.plain = false) (hs : kind.Settled t.revisions)
    (hr : t.Ready (pendingSlot false kind ++ pendingFields false p.fields) (kind.marks ++ p.own.marks))
    (h : Revised (p.value kind).pending t.revisions R) : kind.refresh R = kind := by
  refine h.refresh_eq hs fun m hm hmp => ?_
  rw [pending_value hA, hplain, if_neg Bool.false_ne_true, List.nil_append] at hmp
  have hown : m ∈ p.own.marks := by
    rw [own, marks_object]
    exact List.mem_cons_of_mem _ (mem_marks_of_pendingFields false p.fields hmp)
  exact hr.disjoint (List.mem_append_right _ hmp) hm hown

/-- A plain piece, as it is after the walk through it, has the kind as it is then. -/
theorem rebuilt_plain {out : Value} {t t₁ : Trail Lift.Memory} (hA : (p.value kind).isA .program = false)
    (hplain : p.plain = true)
    (hr : t.Ready (pendingSlot false kind ++ pendingFields false p.fields) (kind.marks ++ p.own.marks))
    (hsv : (p.value kind).Settled t.revisions) (h : Rebuilt category keepComments (p.value kind) out t t₁) :
    ∃ q : Piece, q.plain = true ∧ out = q.value (kind.refresh t₁.revisions) := by
  have hmark : (p.value kind).mark ∉ (p.value kind).pending := fun hm =>
    mark_not_pending hr (pending_value_subset hA hm)
  refine ⟨{ p with fields := p.fields.map fun f => (f.1, f.2.refresh t₁.revisions) }, hplain, ?_⟩
  rw [h.refreshed, h.visited.revised.refresh_parts hsv hmark, refreshParts_value]
  rfl

/-- **The kind after a piece.** An import does not touch it. A plain piece lifts it, and leaves nothing in it to be
done by the pieces that follow. -/
theorem kind_after {out : Value} {t t₁ : Trail Lift.Memory} (hA : (p.value kind).isA .program = false)
    (hs : kind.Settled t.revisions)
    (hr : t.Ready (pendingSlot false kind ++ pendingFields false p.fields) (kind.marks ++ p.own.marks))
    (hsv : (p.value kind).Settled t.revisions) (h : Rebuilt category keepComments (p.value kind) out t t₁) :
    KindAfter keepComments p kind (kind.refresh t₁.revisions) t t₁ := by
  cases hplain : p.plain with
  | false =>
    rw [kind_of_import hA hplain hs hr h.visited.revised]
    exact ⟨fun m hm => .inl hm, .inr ⟨rfl, hplain⟩, fun _ => rfl, rfl⟩
  | true =>
    obtain ⟨q, hq, hout⟩ := rebuilt_plain hA hplain hr hsv h
    have houtA : out.isA .program = false := by
      rw [← regular_erase.isA, h.erased, Lift.isA_lifted, regular_erase.isA, hA]
    have hnone : pendingSlot false (kind.refresh t₁.revisions) = [] := by
      have hclean := h.pending_eq_nil
      rw [hout] at houtA hclean
      rw [pending_value houtA] at hclean
      have hfirst := (List.append_eq_nil_iff.mp hclean).1
      rwa [if_pos hq] at hfirst
    have hkind : (kind.refresh t₁.revisions).erase = Lift.liftedSlot keepComments false kind.erase := by
      have hget : out.erase.get? "kind" = some (kind.refresh t₁.revisions).erase := by
        rw [hout, get?_erase, get?_kind hq]
        rfl
      rw [h.erased, get?_kind_lifted hA hplain] at hget
      exact (Option.some.inj hget).symm
    refine ⟨fun m hm => ?_, .inl hnone, fun h => absurd (h.symm.trans hplain) Bool.false_ne_true, ?_⟩
    · have hmem : m ∈ out.marks := hout ▸ mem_marks_kind hq hm
      rcases h.visited.origin m hmem with hin | hnew
      · rcases mem_marks_value hin with hin | hin
        · exact .inr (.inl hin)
        · exact .inl hin.2
      · exact .inr (.inr hnew)
    · have hnone' : pendingSlot false (kind.refresh t₁.revisions).erase = [] := by
        rw [pendingSlot_erase, hnone]
        rfl
      rw [(Lift.lifted_eq_self keepComments _).2 false hnone', hkind]

end Piece

/-- Nothing that is pending in the pieces that follow is in a piece or in the kind. -/
theorem rest_apart {p : Piece} {rest : List Piece} {kind : Value} {t : Trail Lift.Memory}
    (hr : t.Ready (pendingSlot false kind ++
        (pendingFields false p.fields ++ rest.flatMap fun q => pendingFields false q.fields))
      (kind.marks ++ (p.own.marks ++ marksItems (rest.map Piece.own)))) {m : Nat}
    (hm : m ∈ rest.flatMap fun q => pendingFields false q.fields) :
    m ∈ marksItems (rest.map Piece.own) ∧ m ∉ kind.marks ∧ m ∉ p.own.marks ∧ m < t.next := by
  obtain ⟨q, hq, hmq⟩ := List.mem_flatMap.mp hm
  have hin : m ∈ marksItems (rest.map Piece.own) := by
    refine List.mem_flatMap.mpr ⟨q.own, List.mem_map_of_mem hq, ?_⟩
    rw [Piece.own, marks_object]
    exact List.mem_cons_of_mem _ (mem_marks_of_pendingFields false q.fields hmq)
  have hpend := List.mem_append_right (pendingSlot false kind)
    (List.mem_append_right (pendingFields false p.fields) hm)
  refine ⟨hin, fun hk => ?_, fun hp => ?_, ?_⟩
  · exact hr.disjoint hpend hk (List.mem_append_right _ hin)
  · exact hr.right.disjoint (List.mem_append_right _ hm) hp hin
  · exact (hr.bounded m (List.mem_append_right _ (List.mem_append_right _ hin))).2

/-- Nothing that is pending in a piece is in the pieces that follow. -/
theorem first_apart {p q : Piece} {rest : List Piece} {kind : Value} {t : Trail Lift.Memory}
    (hA : (p.value kind).isA .program = false)
    (hr : t.Ready (pendingSlot false kind ++
        (pendingFields false p.fields ++ rest.flatMap fun q => pendingFields false q.fields))
      (kind.marks ++ (p.own.marks ++ marksItems (rest.map Piece.own)))) (hq : q ∈ rest) {m : Nat}
    (hm : m ∈ q.own.marks) : m ∉ (p.value kind).pending := by
  intro hp
  have hin : m ∈ marksItems (rest.map Piece.own) := List.mem_flatMap.mpr ⟨q.own, List.mem_map_of_mem hq, hm⟩
  have hpend : m ∈ pendingSlot false kind ++
      (pendingFields false p.fields ++ rest.flatMap fun q => pendingFields false q.fields) := by
    rw [← List.append_assoc]
    exact List.mem_append_left _ (Piece.pending_value_subset hA hp)
  have honce := hr.once m hpend
  have hrest := List.count_pos_iff.mpr hin
  rw [List.count_append, List.count_append] at honce
  -- a pending mark is in the kind or in the piece itself, and occurs once
  rcases Piece.mem_marks_value (mem_marks_of_pending _ hp) with hown | ⟨_, hkind⟩
  · have hpos := List.count_pos_iff.mpr hown
    omega
  · have hpos := List.count_pos_iff.mpr hkind
    omega

/-- What comes after a piece can be walked through with the kind that it leaves. -/
theorem KindAfter.ready {p : Piece} {rest : List Piece} {kind kind' : Value} {t t₁ : Trail Lift.Memory}
    (h : KindAfter keepComments p kind kind' t t₁) (ht : t.Sound) (hle : t.next ≤ t₁.next)
    (hr : t.Ready (pendingSlot false kind ++
        (pendingFields false p.fields ++ rest.flatMap fun q => pendingFields false q.fields))
      (kind.marks ++ (p.own.marks ++ marksItems (rest.map Piece.own)))) :
    t₁.Ready (pendingSlot false kind' ++ rest.flatMap fun q => pendingFields false q.fields)
      (kind'.marks ++ marksItems (rest.map Piece.own)) := by
  have hpos := ht.pos
  have hlater := hr.later hle
  refine ⟨fun m hm => ?_, fun m hm => ?_⟩
  · rcases List.mem_append.mp hm with hm | hm
    · rcases h.marks m hm with hm | hm | hm
      · exact hlater.bounded m (List.mem_append_left _ hm)
      · exact hlater.bounded m (List.mem_append_right _ (List.mem_append_left _ hm))
      · omega
    · exact hlater.bounded m (List.mem_append_right _ (List.mem_append_right _ hm))
  · rw [List.count_append]
    rcases List.mem_append.mp hm with hm | hm
    · rcases h.pending with hnil | ⟨rfl, _⟩
      · rw [hnil] at hm
        exact absurd hm List.not_mem_nil
      · have honce := hr.once m (List.mem_append_left _ hm)
        simp only [List.count_append] at honce
        omega
    · obtain ⟨_, hk, hown, hlt⟩ := rest_apart hr hm
      have hnone : m ∉ kind'.marks := by
        intro hm'
        rcases h.marks m hm' with hin | hin | hnew
        · exact hk hin
        · exact hown hin
        · omega
      have honce := hr.once m (List.mem_append_right _ (List.mem_append_right _ hm))
      simp only [List.count_append, List.count_eq_zero.mpr hnone] at honce ⊢
      omega

/-- What is pending in the pieces that follow was pending before. -/
theorem KindAfter.mem_pending {p : Piece} {rest : List Piece} {kind kind' : Value} {t t₁ : Trail Lift.Memory}
    (h : KindAfter keepComments p kind kind' t t₁) {m : Nat}
    (hm : m ∈ pendingSlot false kind' ++ rest.flatMap fun q => pendingFields false q.fields) :
    m ∈ pendingSlot false kind ++
      (pendingFields false p.fields ++ rest.flatMap fun q => pendingFields false q.fields) := by
  rcases List.mem_append.mp hm with hm | hm
  · rcases h.pending with hnil | ⟨rfl, _⟩
    · rw [hnil] at hm
      exact absurd hm List.not_mem_nil
    · exact List.mem_append_left _ hm
  · exact List.mem_append_right _ (List.mem_append_right _ hm)

/-- The pieces that follow edit nothing in a piece that was walked through. -/
theorem KindAfter.apart {p : Piece} {rest : List Piece} {kind kind' out : Value} {t t₁ : Trail Lift.Memory}
    (h : KindAfter keepComments p kind kind' t t₁)
    (hr : t.Ready (pendingSlot false kind ++
        (pendingFields false p.fields ++ rest.flatMap fun q => pendingFields false q.fields))
      (kind.marks ++ (p.own.marks ++ marksItems (rest.map Piece.own))))
    (h₁ : Rebuilt category keepComments (p.value kind) out t t₁) :
    ∀ m ∈ pendingSlot false kind' ++ rest.flatMap (fun q => pendingFields false q.fields), m ∉ out.marks := by
  intro m hm hout
  rcases List.mem_append.mp hm with hm | hm
  · rcases h.pending with hnil | ⟨rfl, hplain⟩
    · rw [hnil] at hm
      exact absurd hm List.not_mem_nil
    · have hmk := mem_marks_of_pendingSlot false kind' hm
      rcases h₁.visited.origin m hout with hin | hnew
      · rcases Piece.mem_marks_value hin with hin | ⟨hp, _⟩
        · exact hr.disjoint (List.mem_append_left _ hm) hmk (List.mem_append_left _ hin)
        · rw [hplain] at hp
          cases hp
      · have hlt := (hr.bounded m (List.mem_append_left _ hmk)).2
        omega
  · obtain ⟨_, hk, hown, hlt⟩ := rest_apart hr hm
    rcases h₁.visited.origin m hout with hin | hnew
    · exact (Piece.mem_marks_value hin).elim hown fun h => hk h.2
    · omega

/-- One piece, and then the others. -/
theorem Repieced.cons {p : Piece} {rest : List Piece} {kind kind' out : Value} {outs : List Value}
    {t t₁ t₂ : Trail Lift.Memory} (hA : ∀ q ∈ p :: rest, ∀ k, (q.value k).isA .program = false)
    (hnode : (p.value kind).isNode = true) (hquiet : Statement.isCandidate (p.value kind) = .ok false)
    (hr : t.Ready (pendingSlot false kind ++
        (pendingFields false p.fields ++ rest.flatMap fun q => pendingFields false q.fields))
      (kind.marks ++ (p.own.marks ++ marksItems (rest.map Piece.own))))
    (h₁ : Rebuilt category keepComments (p.value kind) out t t₁)
    (hkind : KindAfter keepComments p kind kind' t t₁)
    (h₂ : Repieced category keepComments kind' rest outs t₁ t₂) :
    Repieced category keepComments kind (p :: rest) (out :: outs) t t₂ := by
  obtain ⟨hAp, hArest⟩ := List.forall_mem_cons.mp hA
  have hsep := hkind.apart hr h₁
  refine ⟨fun o => ?_, ?_, ?_⟩
  · rw [List.flatMap_cons, List.map_cons, marksItems_cons, marksItems_cons, reachedItems, if_pos (h₁.isNode.trans hnode)]
    refine (h₁.visited.enter (h₁.isCandidate.trans hquiet) h₁.settled).trans (h₂.visited o) hsep
      (fun m hm => ?_) (fun m hm => ?_) (fun m hm => ?_) (fun m hm => ?_)
    · rw [← List.append_assoc]
      exact List.mem_append_left _ (Piece.pending_value_subset (hAp kind) hm)
    · exact hkind.mem_pending hm
    · rcases Piece.mem_marks_value hm with hm | hm
      · exact List.mem_append_right _ (List.mem_append_left _ hm)
      · exact List.mem_append_left _ hm.2
    · rcases List.mem_append.mp hm with hm | hm
      · rcases hkind.marks m hm with hm | hm | hm
        · exact .inl (List.mem_append_left _ hm)
        · exact .inl (List.mem_append_right _ (List.mem_append_left _ hm))
        · exact .inr hm
      · exact .inl (List.mem_append_right _ (List.mem_append_right _ hm))
  · refine List.forall_mem_cons.mpr ⟨?_, h₂.settled⟩
    exact (h₂.visited .null).revised.keep out h₁.settled fun m hm hpend => hsep m hpend hm
  · rw [List.map_cons, List.map_cons, h₁.erased, h₂.erased]
    refine congrArg _ (List.map_congr_left fun q hq => ?_)
    exact Piece.lifted_value_congr (hArest q hq kind') (hArest q hq kind) hkind.lifted

namespace Walk

/-- What the walk needs for the first piece. -/
theorem piece_ready {p : Piece} {rest : List Piece} {kind : Value} {t : Trail Lift.Memory} (ht : t.Sound)
    (hA : (p.value (t.current kind)).isA .program = false)
    (hown : p.own.Settled t.revisions ∧ t.revisions.lookup p.mark = none)
    (hr : t.Ready (pendingSlot false (t.current kind) ++
        (pendingFields false p.fields ++ rest.flatMap fun q => pendingFields false q.fields))
      ((t.current kind).marks ++ (p.own.marks ++ marksItems (rest.map Piece.own)))) :
    t.current (p.value kind) = p.value (t.current kind) ∧ (p.value (t.current kind)).Settled t.revisions ∧
      t.Ready (pendingSlot false (t.current kind) ++ pendingFields false p.fields)
        ((t.current kind).marks ++ p.own.marks) ∧
      t.Ready (p.value (t.current kind)).pending (p.value (t.current kind)).marks := by
  have hcurrent : t.current (p.value kind) = p.value (t.current kind) := Piece.refresh_value hown.1 hown.2
  have hrP : t.Ready (pendingSlot false (t.current kind) ++ pendingFields false p.fields)
      ((t.current kind).marks ++ p.own.marks) := by
    refine hr.sub (fun m hm => ?_) fun m => ?_
    · rw [← List.append_assoc]
      exact List.mem_append_left _ hm
    · simp only [List.count_append]
      omega
  refine ⟨hcurrent, hcurrent ▸ settled_refresh ht.closed (p.value kind), hrP, ?_⟩
  refine hrP.sub (fun m hm => Piece.pending_value_subset hA hm) fun m => ?_
  rw [List.count_append]
  exact Piece.count_marks_value_le m

/-- What the walk needs for the pieces that follow, once it went through the first one. -/
theorem pieces_rest {p : Piece} {rest : List Piece} {kind out : Value} {t t₁ : Trail Lift.Memory} (ht : t.Sound)
    (hA : (p.value (t.current kind)).isA .program = false)
    (hown : ∀ q ∈ p :: rest, q.own.Settled t.revisions ∧ t.revisions.lookup q.mark = none)
    (hr : t.Ready (pendingSlot false (t.current kind) ++
        (pendingFields false p.fields ++ rest.flatMap fun q => pendingFields false q.fields))
      ((t.current kind).marks ++ (p.own.marks ++ marksItems (rest.map Piece.own))))
    (h : Rebuilt category keepComments (p.value (t.current kind)) out t t₁) :
    KindAfter keepComments p (t.current kind) (t₁.current kind) t t₁ ∧ t₁.Sound ∧
      (∀ q ∈ rest, q.own.Settled t₁.revisions ∧ t₁.revisions.lookup q.mark = none) ∧
      t₁.Ready (pendingSlot false (t₁.current kind) ++ rest.flatMap fun q => pendingFields false q.fields)
        ((t₁.current kind).marks ++ marksItems (rest.map Piece.own)) := by
  obtain ⟨hownP, hownRest⟩ := List.forall_mem_cons.mp hown
  obtain ⟨_, hsv, hrP, hrValue⟩ := piece_ready ht hA hownP hr
  have hkind := Piece.kind_after hA (settled_refresh ht.closed kind) hrP hsv h
  have hagain : (t.current kind).refresh t₁.revisions = t₁.current kind := h.visited.revised.again kind
  rw [hagain] at hkind
  refine ⟨hkind, h.visited.sound ht fun m hm => (hrValue.bounded m (mem_marks_of_pending _ hm)).2, fun q hq => ?_,
    hkind.ready ht h.visited.next_le hr⟩
  -- what the first piece edited is neither in the others nor are they marked so
  have hapart (m : Nat) (hm : m ∈ q.own.marks) : m ∉ (p.value (t.current kind)).pending := first_apart hA hr hq hm
  have hmark : q.mark ∈ q.own.marks := by
    rw [Piece.own, marks_object]
    exact List.mem_cons_self
  exact ⟨h.visited.revised.keep _ (hownRest q hq).1 hapart,
    h.visited.revised.lookup_none (hapart _ hmark) (hownRest q hq).2⟩

/-- No pieces at all. -/
theorem repieced_nil {kind : Value} {t : Trail Lift.Memory} (ht : t.Sound) :
    Repieced category keepComments kind [] [] t t := by
  have hnone : Visited category [] [] [] [] t t := .refl ht
  refine ⟨fun o => ?_, fun x hx => absurd hx List.not_mem_nil, rfl⟩
  exact hnone.mono (fun m hm => absurd hm List.not_mem_nil) (fun m hm => absurd hm List.not_mem_nil)
    (fun m hm => hm) fun m hm => .inl hm

end Walk

/-! ## Finding a statement in its list -/

/-- A marked node is the same as itself. -/
theorem Value.same_self {v : Value} (hn : v.isNode = true) (hm : v.mark ≠ 0) : v.same v = true := by
  cases v with
  | object m fs =>
    have hm' : m ≠ 0 := hm
    simp [same, hm']
  | _ => cases hn

/-- What is the same as a node has its mark. -/
theorem Value.mark_mem_of_same {v x : Value} (hn : v.isNode = true) (h : x.same v = true) : v.mark ∈ x.marks := by
  cases v with
  | object m fs =>
    cases x with
    | object k gs =>
      have hk : k = m := by
        simp only [same, Bool.and_eq_true, beq_iff_eq] at h
        exact h.1
      rw [marks_object, hk]
      exact List.mem_cons_self
    | _ => cases h
  | _ => cases hn

/-- A node is found where it stands, if its mark does not occur before. -/
theorem Replacement.locate_append {v : Value} {done rest : List Value} (hn : v.isNode = true) (hm : v.mark ≠ 0)
    (hdone : v.mark ∉ marksItems done) : locate v (done ++ v :: rest) = some (done, rest) := by
  induction done with
  | nil => rw [List.nil_append, locate, if_pos (same_self hn hm)]
  | cons x done ih =>
    rw [marksItems_cons] at hdone
    have hx : ¬x.same v = true := fun h => hdone (List.mem_append_left _ (mark_mem_of_same hn h))
    rw [List.cons_append, locate, if_neg hx, ih fun h => hdone (List.mem_append_right _ h)]
    rfl

namespace Walk

/-- An item that is no node stays. -/
theorem relisted_other {v : Value} {t : Trail Lift.Memory} {program : Bool} (hn : v.isNode = false) (ht : t.Sound)
    (hs : v.Settled t.revisions) : Relisted category keepComments program [v] [v] false t t := by
  have hpend : pendingItems program [v] = [] := by
    rw [pendingItems, if_neg (by rw [hn]; exact Bool.false_ne_true)]
    rfl
  have hreached (o : Value) : reachedItems o [v] = [] := by
    rw [reachedItems, if_neg (by rw [hn]; exact Bool.false_ne_true)]
    rfl
  refine ⟨fun o _ => ?_, ?_, ?_, fun h => absurd h Bool.false_ne_true, fun _ => ?_⟩
  · rw [hpend, hreached]
    exact .refl ht
  · intro x hx
    rw [List.mem_singleton.mp hx]
    exact hs
  · rw [List.map_singleton, List.flatMap_singleton, Lift.liftedItem_other keepComments program (by rw [isNode_erase, hn])]
  · rw [List.map_singleton, hs.refresh]

/-- An item that is kept, and walked through. -/
theorem relisted_keep {v out owner : Value} {t t' t₁ : Trail Lift.Memory} {program : Bool} (hn : v.isNode = true)
    (howner : owner.isA .program = program)
    (hask : (Lift.visitor category keepComments).ask v (some owner) t = (.ok .keep, t'))
    (h : Rebuilt category keepComments v out t' t₁) :
    Relisted category keepComments program [v] [out] false t t₁ := by
  have hprogram : Lift.isProgram (some owner) = program := howner
  have hasked (o : Value) (ho : o.isA .program = program) := h.asked hprogram ho hask
  obtain ⟨o₀, ho₀⟩ := exists_owner program
  obtain ⟨_, hload⟩ := hasked o₀ ho₀
  have hpend : pendingItems program [v] = v.pending := by
    rw [pendingItems, if_pos hn, if_neg (by rw [hload]; exact Bool.false_ne_true), List.nil_append]
    exact List.append_nil _
  refine ⟨fun o ho => ?_, ?_, ?_, fun h => absurd h Bool.false_ne_true, fun _ => ?_⟩
  · have hreached : reachedItems o [out] = (o, out) :: out.reached := by
      rw [reachedItems, if_pos (h.isNode.trans hn)]
      exact List.append_nil _
    rw [hpend, hreached, marksItems_cons, marksItems_nil, List.append_nil, marksItems_cons, marksItems_nil,
      List.append_nil]
    exact (hasked o ho).1
  · intro x hx
    rw [List.mem_singleton.mp hx]
    exact h.settled
  · rw [List.map_singleton, List.map_singleton, List.flatMap_singleton, h.erased,
      Lift.liftedItem_keep keepComments (by rw [isNode_erase, hn]) (by rw [Statement.loads_erase, hload])]
  · rw [List.map_singleton, ← h.refreshed]

end Walk

namespace Statement.Parted

variable {e kind : Value} {next last : Nat} {ps : List Piece} {t t' : Trail Lift.Memory}

/-- The marks of the pieces are those of the statement, and fresh ones. -/
theorem mem_marks (h : Parted e next last kind ps) (he : ∀ m ∈ e.marks, 0 < m) (hnext : 0 < next) {m : Nat}
    (hm : m ∈ kind.marks ++ marksItems (ps.map Piece.own)) : m ∈ e.marks ∨ next ≤ m ∧ m < last := by
  have hpos : 0 < m := by
    rcases List.mem_append.mp hm with hm | hm
    · obtain ⟨c, hc, rfl⟩ := List.mem_map.mp hm
      exact he _ (List.mem_map_of_mem (h.kindIn c hc))
    · obtain ⟨x, hx, hmx⟩ := List.mem_flatMap.mp hm
      obtain ⟨p, hp, rfl⟩ := List.mem_map.mp hx
      obtain ⟨c, hc, rfl⟩ := List.mem_map.mp hmx
      rcases (h.placed p hp).compounds hc with hfresh | hold
      · exact Nat.lt_of_lt_of_le hnext hfresh
      · exact he _ (List.mem_map_of_mem hold)
  have hcount := h.count m hpos
  have hin := List.count_pos_iff.mpr hm
  rw [List.count_append] at hin
  by_cases he : m ∈ e.marks
  · exact .inl he
  · rw [List.count_eq_zero.mpr he] at hcount
    refine .inr ?_
    unfold given at hcount
    split at hcount
    · rename_i hgiven
      exact hgiven
    · omega

/-- What is pending in the pieces was pending in the statement. -/
theorem mem_pending (h : Parted e next last kind ps) {m : Nat}
    (hm : m ∈ pendingSlot false kind ++ ps.flatMap fun p => pendingFields false p.fields) : m ∈ e.pending := by
  rcases List.mem_append.mp hm with hm | hm
  · exact h.kindPending m hm
  · obtain ⟨p, hp, hm⟩ := List.mem_flatMap.mp hm
    exact (h.placed p hp).pending m hm

/-- The pieces can be walked through, if the statement can. -/
theorem ready (h : Parted e t.next last kind ps) (ht : t.Sound) (hr : t.Ready e.pending e.marks)
    (ht' : t'.next = last) :
    t'.Ready (pendingSlot false kind ++ ps.flatMap fun p => pendingFields false p.fields)
      (kind.marks ++ marksItems (ps.map Piece.own)) := by
  have hpos := ht.pos
  have hle := h.le
  refine ⟨fun m hm => ?_, fun m hm => ?_⟩
  · rcases h.mem_marks (fun k hk => (hr.bounded k hk).1) hpos hm with hin | hnew
    · have hb := hr.bounded m hin
      exact ⟨hb.1, by omega⟩
    · exact ⟨by omega, by omega⟩
  · have hpend := h.mem_pending hm
    have hb := hr.bounded m (mem_marks_of_pending e hpend)
    have honce := hr.once m hpend
    have hcount := h.count m hb.1
    have hgiven : given t.next last m = 0 := by
      unfold given
      exact if_neg (by omega)
    rw [List.count_append]
    omega

end Statement.Parted

/-- A candidate of a program is to be replaced: the visitor asked for `r`, and the pieces in `r` got their marks. -/
structure Statement.Opened (keepComments : Bool) (v : Value) (r : Replacement) (kind : Value) (ps : List Piece)
    (t t' : Trail Lift.Memory) : Prop where
  loads : loads v = true
  split : split keepComments v = .ok r
  nodes : stampItems t.next r.nodes = (ps.map (Piece.value kind), t'.next)
  parted : Parted v t.next t'.next kind ps
  revisions : t'.revisions = t.revisions
  sink : t'.memory.sink = t.memory.sink
  rejected : t'.memory.rejected = t.memory.rejected
  replacements : t'.memory.replacements = t.memory.replacements ++ [r]

/-- What a request to split a statement says. -/
theorem Lift.exists_opened {v owner : Value} {request : Replacement} {t t' : Trail Memory}
    (hm : ∀ m ∈ v.marks, 0 < m)
    (hask : (visitor category keepComments).ask v (some owner) t = (.ok (.splice request), t')) :
    owner.isA .program = true ∧ ∃ r kind ps, request = ⟨v, ps.map (Piece.value kind)⟩ ∧
      Statement.Opened keepComments v r kind ps t t' := by
  rcases ask_cases category keepComments v (some owner) t with
    ⟨fault, t'', h⟩ | ⟨_, h⟩ | ⟨_, _, sink, _, h⟩ | ⟨hc, hp, r, hsplit, h⟩
  · rw [hask] at h; cases h
  · rw [hask] at h; cases h
  · rw [hask] at h; cases h
  · have hload := Statement.loads_iff.mpr hc
    obtain ⟨htarget, kind, ps, last, hnodes, hparted⟩ := Statement.split_parted t.next hload hm hsplit
    have hstamp : Answer.stamp t.next (.splice r) = (.splice ⟨v, ps.map (Piece.value kind)⟩, last) := by
      simp only [Answer.stamp, htarget, stamp_of_marked t.next v hm, hnodes]
    rw [hstamp, hask] at h
    obtain ⟨hanswer, rfl⟩ := Prod.mk.inj h
    exact ⟨hp, r, kind, ps, Answer.splice.inj (Except.ok.inj hanswer), hload, hsplit, hnodes, hparted, rfl, rfl, rfl, rfl⟩

namespace Statement.Opened

variable {v kind : Value} {r : Replacement} {ps : List Piece} {t t' t₁ : Trail Lift.Memory}

/-- What the walk needs for the pieces of a statement, once they have their marks. -/
theorem walkable (h : Opened keepComments v r kind ps t t') (ht : t.Sound) (hs : v.Settled t.revisions)
    (hr : t.Ready v.pending v.marks) :
    t'.Sound ∧ t'.current kind = kind ∧
      (∀ p ∈ ps, p.own.Settled t'.revisions ∧ t'.revisions.lookup p.mark = none) ∧
      t'.Ready (pendingSlot false (t'.current kind) ++ ps.flatMap fun p => pendingFields false p.fields)
        ((t'.current kind).marks ++ marksItems (ps.map Piece.own)) := by
  have hle := h.parted.le
  -- the kind is part of the statement, which was up to date
  have hkind : t'.current kind = kind := by
    show kind.refresh t'.revisions = kind
    rw [h.revisions]
    exact Settled.refresh fun c hc => hs c (h.parted.kindIn c hc)
  refine ⟨⟨?_, h.revisions ▸ ht.closed, fun m hm => ?_⟩, hkind, fun p hp => ?_, ?_⟩
  · have hpos := ht.pos
    omega
  · rw [h.revisions]
    exact ht.fresh m (by omega)
  · have hplaced := h.parted.placed p hp
    rw [h.revisions]
    refine ⟨fun c hc => ?_, ht.fresh p.mark hplaced.fresh⟩
    exact (hplaced.compounds hc).elim (fun h => .inl (ht.fresh _ h)) (hs c)
  · rw [hkind]
    exact h.parted.ready ht hr rfl

/-- Without marks, the pieces are those of the statement without marks. -/
theorem nodes_erase (h : Opened keepComments v r kind ps t t') :
    r.nodes.map erase = ps.map fun p => (p.value kind).erase := by
  have hstamp := erase_stampItems t.next r.nodes
  rw [h.nodes, eraseItems_eq_map, eraseItems_eq_map, List.map_map] at hstamp
  exact hstamp.symm

theorem replaced_erase (h : Opened keepComments v r kind ps t t') :
    Statement.replaced keepComments v.erase = ps.map fun p => (p.value kind).erase := by
  rw [← h.nodes_erase]
  refine Statement.replaced_of_split (by rw [Statement.loads_erase, h.loads]) (r := r.erase) ?_
  rw [Statement.split_erase, h.split]
  rfl

end Statement.Opened

namespace Walk

/-- A candidate of a program is taken out of its list, and its pieces are walked through. -/
theorem relisted_splice {v kind : Value} {r : Replacement} {ps : List Piece} {out : List Value}
    {t t' t₁ : Trail Lift.Memory} (hopen : Statement.Opened keepComments v r kind ps t t') (ht : t.Sound)
    (hr : t.Ready v.pending v.marks) (h : Repieced category keepComments kind ps out t' t₁) :
    Relisted category keepComments true [v] out true t t₁ := by
  have hle := hopen.parted.le
  refine ⟨fun o _ => ?_, h.settled, ?_, fun _ => ?_, fun h => absurd h (by decide)⟩
  · rw [marksItems_cons, marksItems_nil, List.append_nil]
    refine (h.visited o).rebase hle hopen.revisions hopen.sink hopen.rejected (fun m hm => ?_) fun m hm => ?_
    · exact mem_pendingItems List.mem_cons_self (Statement.isNode_of_loads hopen.loads) (hopen.parted.mem_pending hm)
    · exact hopen.parted.mem_marks (fun k hk => (hr.bounded k hk).1) ht.pos hm
  · rw [h.erased, List.map_singleton, List.flatMap_singleton,
      Lift.liftedItem_replaced keepComments (by rw [isNode_erase]; exact Statement.isNode_of_loads hopen.loads),
      hopen.replaced_erase, List.map_map]
    rfl
  · rw [List.any_cons, hopen.loads]
    rfl

/-- What the walk needs for the first item. -/
theorem item_ready {v : Value} {rest : List Value} {program : Bool} {t : Trail Lift.Memory} (hn : v.isNode = true)
    (hr : t.Ready (pendingItems program (v :: rest)) (marksItems (v :: rest))) : t.Ready v.pending v.marks := by
  refine hr.sub (fun m hm => mem_pendingItems List.mem_cons_self hn hm) fun m => ?_
  rw [marksItems_cons, List.count_append]
  exact Nat.le_add_right _ _

/-- A candidate of a program is pending, so it is found at its own place. -/
theorem splice_found {v : Value} {done rest : List Value} {t : Trail Lift.Memory} (nodes : List Value)
    (hload : Statement.loads v = true) (hr : t.Ready (pendingItems true (v :: rest)) (marksItems (v :: rest)))
    (hdone : ∀ m ∈ pendingItems true (v :: rest), m ∉ marksItems done) :
    Replacement.split ⟨v, nodes⟩ (done ++ v :: rest) = .ok (done, rest) := by
  have hn := Statement.isNode_of_loads hload
  have hpending : v.mark ∈ pendingItems true (v :: rest) := by
    rw [pendingItems, if_pos hn, if_pos (by rw [hload]; rfl)]
    exact List.mem_append_left _ (List.mem_append_left _ List.mem_cons_self)
  have hmark := ((item_ready hn hr).bounded v.mark (mark_mem_marks hn)).1
  rw [Replacement.split, Replacement.locate_append hn (Nat.ne_of_gt hmark) (hdone _ hpending)]

/-- What the walk needs for the items that follow, once it went through the first one. -/
theorem relisted_rest {done out rest : List Value} {v : Value} {edited program : Bool} {t t₁ : Trail Lift.Memory}
    (h : Relisted category keepComments program [v] out edited t t₁) (ht : t.Sound)
    (hs : ∀ x ∈ rest, x.Settled t.revisions)
    (hr : t.Ready (pendingItems program (v :: rest)) (marksItems (v :: rest)))
    (hdone : ∀ m ∈ pendingItems program (v :: rest), m ∉ marksItems done) :
    t₁.Sound ∧ (∀ x ∈ rest, x.Settled t₁.revisions) ∧ t₁.Ready (pendingItems program rest) (marksItems rest) ∧
      ∀ m ∈ pendingItems program rest, m ∉ marksItems (done ++ out) := by
  have hpend : pendingItems program (v :: rest) = pendingItems program [v] ++ pendingItems program rest :=
    pendingItems_append program [v] rest
  have hmarks : marksItems (v :: rest) = marksItems [v] ++ marksItems rest := marksItems_append [v] rest
  rw [hpend, hmarks] at hr
  obtain ⟨o₀, ho₀⟩ := exists_owner program
  have hvisited := h.visited o₀ ho₀
  have hsub (m : Nat) (hm : m ∈ pendingItems program [v]) : m ∈ marksItems [v] :=
    mem_marks_of_pendingItems program [v] hm
  have hapart := hvisited.apart hr fun m => mem_marks_of_pendingItems program rest
  refine ⟨hvisited.sound ht fun m hm => (hr.left.bounded m (hsub m hm)).2, fun x hx => ?_,
    hr.right.later hvisited.next_le, fun m hm hmem => ?_⟩
  · refine hvisited.revised.keep x (hs x hx) fun m hmx hm => ?_
    exact hr.disjoint (List.mem_append_left _ hm) (hsub m hm) (List.mem_flatMap.mpr ⟨x, hx, hmx⟩)
  · rw [marksItems_append] at hmem
    rcases List.mem_append.mp hmem with hmem | hmem
    · exact hdone m (by rw [hpend]; exact List.mem_append_right _ hm) hmem
    · exact hapart m hm hmem

end Walk
end EsmLift
