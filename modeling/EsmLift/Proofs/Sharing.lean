import EsmLift.Proofs.Entries
import EsmLift.Proofs.Refinement

/-!
# `Proofs.Sharing` — what stands in two places

When a statement is split, each of its parts goes to one place, but for its kind, which all plain pieces share. So an
object of a tree without sharing stands in two places of the tree that a pass leaves behind only if it stood in such a
kind (`Lift.Shared`). What the pass builds is no candidate. Together they say which nodes a pass can reject twice.

## Contents

* `Lift.exists_of_pending`, `Lift.mem_splits`: what is pending is a list, or a statement that is going to be split;
* `Value.LoadsBelow`, `Lift.Passes.loadsBelow`: the candidates that are left are those that were given;
* `Lift.Passes.kind_marks`: nothing but new nodes comes into a kind;
* `Lift.Native`: what was not edited is as it was given;
* `Lift.Shared`, `Lift.Passes.left_le`: nothing else comes into two places;
* `Value.reached_sublist`: the nodes of a tree, as parts of it;
* `Lift.run_reports_candidates`: the diagnostics of the pass.
-/

namespace EsmLift

open Value

/-! ## Statements that are going to be split -/

namespace Lift

/-- The candidates among the items of an object's lists, if it is a program, and those of nodes below it. -/
def splitsIn (program : Bool) (xs : List Value) (nodes : List (Value × Value)) : List Value :=
  (if program then xs.filter Statement.loads else []) ++ nodes.flatMap fun p => splitsOf p.2

theorem splitsIn_mono {program : Bool} {xs ys : List Value} {nodes nodes' : List (Value × Value)} (hxs : xs ⊆ ys)
    (hnodes : nodes ⊆ nodes') : splitsIn program xs nodes ⊆ splitsIn program ys nodes' := by
  intro e he
  rcases List.mem_append.mp he with he | he
  · refine List.mem_append_left _ ?_
    split at he
    · rename_i hp
      rw [if_pos hp]
      obtain ⟨hmem, hload⟩ := List.mem_filter.mp he
      exact List.mem_filter.mpr ⟨hxs hmem, hload⟩
    · exact absurd he List.not_mem_nil
  · obtain ⟨p, hp, he⟩ := List.mem_flatMap.mp he
    exact List.mem_append_right _ (List.mem_flatMap.mpr ⟨p, hnodes hp, he⟩)

/-- The splits of a node that is reached. -/
theorem mem_splitsIn_node {program : Bool} {xs : List Value} {o v e : Value} {nodes : List (Value × Value)}
    (h : e ∈ splits v) : e ∈ splitsIn program xs ((o, v) :: (v.reached ++ nodes)) := by
  refine List.mem_append_right _ ?_
  rw [List.flatMap_cons, List.flatMap_append, ← List.append_assoc]
  exact List.mem_append_left _ h

mutual
/-- **What is pending** is a list, or a statement that is going to be split. -/
theorem exists_of_pending {k : Nat} : (v : Value) → k ∈ v.pending →
    ∃ c ∈ v.compounds, c.mark = k ∧ (c.isObject = true → c ∈ splits v)
  | .null, h | .bool _, h | .int _, h | .double _, h | .text _, h | .list .., h | .tuple _, h =>
    absurd h List.not_mem_nil
  | .object m fs, h => by
    rw [pending] at h
    obtain ⟨c, hc, hmark, hsplit⟩ := exists_of_pendingFields (.object m fs) _ fs h
    exact ⟨c, List.mem_cons_of_mem _ hc, hmark, hsplit⟩

theorem exists_of_pendingFields {k : Nat} (o : Value) (program : Bool) :
    (fs : List (String × Value)) → k ∈ pendingFields program fs →
      ∃ c ∈ compoundsFields fs, c.mark = k ∧
        (c.isObject = true → c ∈ splitsIn program (statementsOf fs) (reachedFields o fs))
  | [], h => absurd h List.not_mem_nil
  | (key, v) :: rest, h => by
    rw [pendingFields] at h
    rw [compoundsFields, statementsOf_cons, reachedFields]
    rcases List.mem_append.mp h with h | h
    · split at h
      · exact absurd h List.not_mem_nil
      · rename_i hkey
        obtain ⟨c, hc, hmark, hsplit⟩ := exists_of_pendingSlot o program v h
        rw [if_neg hkey, if_neg hkey]
        exact ⟨c, List.mem_append_left _ hc, hmark, fun hobj =>
          splitsIn_mono (List.subset_append_left ..) (List.subset_append_left ..) (hsplit hobj)⟩
    · obtain ⟨c, hc, hmark, hsplit⟩ := exists_of_pendingFields o program rest h
      exact ⟨c, List.mem_append_right _ hc, hmark, fun hobj =>
        splitsIn_mono (List.subset_append_right ..) (List.subset_append_right ..) (hsplit hobj)⟩

theorem exists_of_pendingSlot {k : Nat} (o : Value) (program : Bool) : (v : Value) → k ∈ pendingSlot program v →
    ∃ c ∈ v.compounds, c.mark = k ∧
      (c.isObject = true → c ∈ splitsIn program (Require.listed v) (reachedSlot o v))
  | .null, h | .bool _, h | .int _, h | .double _, h | .text _, h | .tuple _, h => absurd h List.not_mem_nil
  | .list m xs, h => by
    rw [pendingSlot] at h
    rcases List.mem_append.mp h with h | h
    · split at h
      · exact ⟨_, List.mem_cons_self, (List.mem_singleton.mp h).symm, fun hobj => by cases hobj⟩
      · exact absurd h List.not_mem_nil
    · obtain ⟨c, hc, hmark, hsplit⟩ := exists_of_pendingItemsOf o program xs h
      exact ⟨c, List.mem_cons_of_mem _ hc, hmark, hsplit⟩
  | .object m fs, h => by
    rw [pendingSlot] at h
    split at h
    · rename_i hnode
      obtain ⟨c, hc, hmark, hsplit⟩ := exists_of_pendingFields (.object m fs) _ fs h
      refine ⟨c, List.mem_cons_of_mem _ hc, hmark, fun hobj => ?_⟩
      have hmem := @mem_splitsIn_node program (Require.listed (.object m fs)) o (.object m fs) c [] (hsplit hobj)
      rwa [List.append_nil, ← reachedSlot_node o hnode] at hmem
    · exact absurd h List.not_mem_nil

theorem exists_of_pendingItemsOf {k : Nat} (o : Value) (program : Bool) :
    (xs : List Value) → k ∈ pendingItems program xs →
      ∃ c ∈ compoundsItems xs, c.mark = k ∧ (c.isObject = true → c ∈ splitsIn program xs (reachedItems o xs))
  | [], h => absurd h List.not_mem_nil
  | v :: rest, h => by
    rw [pendingItems] at h
    rw [compoundsItems, reachedItems]
    rcases List.mem_append.mp h with h | h
    · split at h
      · rename_i hnode
        rw [if_pos hnode]
        rcases List.mem_append.mp h with h | h
        · split at h
          · rename_i hload
            obtain ⟨hprogram, hload⟩ := Bool.and_eq_true_iff.mp hload
            refine ⟨v, List.mem_append_left _ (mem_compounds_self hnode), (List.mem_singleton.mp h).symm, fun _ => ?_⟩
            refine List.mem_append_left _ ?_
            rw [if_pos hprogram]
            exact List.mem_filter.mpr ⟨List.mem_cons_self, hload⟩
          · exact absurd h List.not_mem_nil
        · obtain ⟨c, hc, hmark, hsplit⟩ := exists_of_pending v h
          exact ⟨c, List.mem_append_left _ hc, hmark, fun hobj => mem_splitsIn_node (hsplit hobj)⟩
      · exact absurd h List.not_mem_nil
    · obtain ⟨c, hc, hmark, hsplit⟩ := exists_of_pendingItemsOf o program rest h
      exact ⟨c, List.mem_append_right _ hc, hmark, fun hobj =>
        splitsIn_mono (List.subset_cons_self ..) (List.subset_append_right ..) (hsplit hobj)⟩
end

/-- A candidate whose mark is pending is going to be split, where no mark occurs twice. -/
theorem mem_splits {tree e : Value} (honce : ∀ m, tree.marks.count m ≤ 1) (he : e ∈ tree.compounds)
    (hload : Statement.loads e = true) (hpend : e.mark ∈ tree.pending) : e ∈ splits tree := by
  obtain ⟨c, hc, hmark, hsplit⟩ := exists_of_pending tree hpend
  obtain rfl := eq_of_mark hc he hmark (honce _)
  exact hsplit (isObject_of_isNode (Statement.isNode_of_loads hload))

end Lift

/-! ## Candidates -/

/-- The candidates in a value have marks below `next`. -/
def Value.LoadsBelow (next : Nat) (v : Value) : Prop := ∀ c ∈ v.compounds, Statement.loads c = true → c.mark < next

namespace Value.LoadsBelow

variable {next m : Nat}

theorem list {xs : List Value} : (Value.list m xs).LoadsBelow next ↔ ∀ x ∈ xs, x.LoadsBelow next := by
  constructor
  · intro h x hx c hc
    exact h c (mem_compounds_list.mpr (.inr ⟨x, hx, hc⟩))
  · intro h c hc hload
    rcases mem_compounds_list.mp hc with rfl | ⟨x, hx, hc⟩
    · cases hload
    · exact h x hx c hc hload

theorem object {fs : Fields} : (Value.object m fs).LoadsBelow next ↔
    (Statement.loads (.object m fs) = true → m < next) ∧ ∀ f ∈ fs, f.2.LoadsBelow next := by
  constructor
  · intro h
    refine ⟨h _ List.mem_cons_self, fun f hf c hc => ?_⟩
    exact h c (mem_compounds_object.mpr (.inr ⟨f, hf, hc⟩))
  · rintro ⟨hself, hfs⟩ c hc hload
    rcases mem_compounds_object.mp hc with rfl | ⟨f, hf, hc⟩
    · exact hself hload
    · exact hfs f hf c hc hload

end Value.LoadsBelow

namespace Lift

/-- The candidates in a stage have marks below `next`. -/
def Stage.LoadsBelow (next : Nat) : Stage → Trail Memory → Prop
  | .children v, _ => v.LoadsBelow next
  | .fields _ _ _ todo, _ => ∀ f ∈ todo, f.2.LoadsBelow next
  | .slot _ _ _ v, _ => v.LoadsBelow next
  | .items _ _ done todo, _ => ∀ x ∈ done ++ todo, x.LoadsBelow next
  | .pieces kind ps, t => (t.current kind).LoadsBelow next ∧ ∀ p ∈ ps, ∀ f ∈ p.fields, f.2.LoadsBelow next

/-- The candidates in what a stage returns have marks below `next`. -/
def Stage.LeavesBelow (next : Nat) : (stage : Stage) → stage.task.Result → Prop
  | .children _, out => out.LoadsBelow next
  | .fields .., out => ∀ f ∈ out, f.2.LoadsBelow next
  | .slot .., out => out.LoadsBelow next
  | .items .., out => ∀ x ∈ out, x.LoadsBelow next
  | .pieces .., out => ∀ x ∈ out, x.LoadsBelow next

variable {category : Value} {keepComments : Bool} {n next : Nat} {stage : Stage} {t : Trail Memory} {qs : List Question}

/-- The new parts of a piece are no candidates, and the others are those of the statement. -/
theorem Stage.loadsBelow_opened {v kind : Value} {r : Replacement} {ps : List Piece} {t' : Trail Memory}
    (hopen : Statement.Opened keepComments v r kind ps t t') (hkind : t'.current kind = kind)
    (h : v.LoadsBelow next) : (Stage.pieces kind ps).LoadsBelow next t' := by
  refine ⟨?_, fun p hp f hf c hc hload => ?_⟩
  · rw [hkind]
    exact fun c hc => h c (hopen.parted.kindIn c hc)
  · have hmem : c ∈ compoundsFields p.fields := by
      rw [compoundsFields_eq]
      exact List.mem_flatMap.mpr ⟨f, hf, hc⟩
    rcases (hopen.parted.placed p hp).parts c hmem with ⟨_, hA⟩ | hold
    · rw [Statement.isA_of_loads hload] at hA
      cases hA
    · exact h c hold hload

/-- A piece is no candidate itself. -/
theorem Stage.Walkable.loadsBelow_piece {kind : Value} {p : Piece} {rest : List Piece}
    (hw : (Stage.pieces kind (p :: rest)).Walkable t) (h : (Stage.pieces kind (p :: rest)).LoadsBelow next t) :
    (p.value (t.current kind)).LoadsBelow next := by
  obtain ⟨_, _, hquiet, _, _⟩ := hw
  refine Value.LoadsBelow.object.mpr ⟨fun hload => ?_, fun f hf => ?_⟩
  · have hyes : Statement.isCandidate (p.value (t.current kind)) = .ok true := Statement.loads_iff.mp hload
    rw [hquiet p List.mem_cons_self (t.current kind)] at hyes
    cases hyes
  · rcases List.mem_append.mp hf with hf | hf
    · unfold Piece.head at hf
      split at hf
      · rcases List.mem_cons.mp hf with rfl | hf
        · exact fun c hc => absurd hc List.not_mem_nil
        · rw [List.mem_singleton.mp hf]
          exact h.1
      · exact absurd hf List.not_mem_nil
    · exact h.2 p List.mem_cons_self f hf

/-- The kind that a piece leaves to the others is the kind that it has then. -/
theorem Stage.Walkable.current_kind {kind out : Value} {p : Piece} {rest : List Piece} {t₁ : Trail Memory}
    (hw : (Stage.pieces kind (p :: rest)).Walkable t)
    (h : Rebuilt category keepComments (p.value (t.current kind)) out t t₁) :
    (p.plain = false ∧ t₁.current kind = t.current kind) ∨
      p.plain = true ∧ out.get? "kind" = some (t₁.current kind) := by
  have hafter := (hw.nextPiece h).2
  cases hplain : p.plain with
  | false => exact .inl ⟨rfl, hafter.same hplain⟩
  | true =>
    have hA := hw.notProgram p List.mem_cons_self (t.current kind)
    obtain ⟨ht, _, _, hown, hr⟩ := hw
    rw [List.flatMap_cons, List.map_cons, marksItems_cons] at hr
    obtain ⟨_, hsv, hrP, _⟩ := Walk.piece_ready ht hA (hown p List.mem_cons_self) hr
    obtain ⟨q, hq, rfl⟩ := Piece.rebuilt_plain hA hplain hrP hsv h
    refine .inr ⟨rfl, ?_⟩
    rw [Piece.get?_kind hq]
    exact congrArg some (h.visited.revised.again kind)

/-- **The candidates that a pass leaves are those that were given.** -/
theorem Passes.loadsBelow {w : Walked Memory stage.task.Result} (h : Passes category keepComments n stage t qs w)
    (hf : w.fault = none) (hb : stage.LoadsBelow next t) : stage.LeavesBelow next w.value := by
  induction h with
  | exhausted _ => cases hf
  | @object n mark fs t qs w hw hfields hedited ih =>
    obtain ⟨hself, hfs⟩ := Value.LoadsBelow.object.mp hb
    refine Value.LoadsBelow.object.mpr ⟨fun hload => hself ?_, ih hf hfs⟩
    have hsame := (Passes.object hw hfields hedited).achieved hf
    rw [Statement.loads_iff] at hload ⊢
    rw [← hsame.isCandidate]
    exact hload
  | noFields _ => exact fun f hf => absurd hf List.not_mem_nil
  | fieldStop _ _ _ _ => cases hf
  | field _ _ hfault _ ih ih' =>
    obtain ⟨hv, hrest⟩ := List.forall_mem_cons.mp hb
    exact List.forall_mem_cons.mpr ⟨ih hfault hv, ih' hf hrest⟩
  | metadata _ _ => exact hb
  | slotList _ _ _ ih => exact Value.LoadsBelow.list.mpr (ih hf (Value.LoadsBelow.list.mp hb))
  | slotOther _ _ _ _ => exact hb
  | slotFault _ _ _ _ => cases hf
  | slotKeep _ _ _ _ _ ih => exact ih hf hb
  | slotSplice _ _ _ _ => cases hf
  | noItems _ => exact fun x hx => hb x (List.mem_append_left _ hx)
  | itemOther _ _ _ ih =>
    refine ih hf fun x hx => hb x ?_
    rwa [List.append_assoc] at hx
  | itemFault _ _ _ => cases hf
  | itemKeepStop _ _ _ _ _ _ => cases hf
  | itemKeep _ _ _ _ hfault _ ih ih' =>
    obtain ⟨hdone, htodo⟩ := List.forall_mem_append.mp hb
    obtain ⟨hv, hrest⟩ := List.forall_mem_cons.mp htodo
    have hout := ih hfault hv
    have hdone' := List.forall_mem_append.mpr ⟨hdone, List.forall_mem_singleton.mpr hout⟩
    exact ih' hf (List.forall_mem_append.mpr ⟨hdone', hrest⟩)
  | itemSpliceStop _ _ _ _ _ _ => cases hf
  | itemSplice hw _ hopen _ hfault _ ih ih' =>
    obtain ⟨hdone, htodo⟩ := List.forall_mem_append.mp hb
    obtain ⟨hv, hrest⟩ := List.forall_mem_cons.mp htodo
    have hout := ih hfault (Stage.loadsBelow_opened hopen (hw.current_opened hopen) hv)
    exact ih' hf (List.forall_mem_append.mpr ⟨List.forall_mem_append.mpr ⟨hdone, hout⟩, hrest⟩)
  | noPieces _ => exact fun x hx => absurd hx List.not_mem_nil
  | pieceStop _ _ _ _ => cases hf
  | piece hw hchildren hfault _ ih ih' =>
    have hout := ih hfault (hw.loadsBelow_piece hb)
    refine List.forall_mem_cons.mpr ⟨hout, ih' hf ⟨?_, (List.forall_mem_cons.mp hb.2).2⟩⟩
    rcases hw.current_kind (hchildren.achieved hfault) with ⟨_, hsame⟩ | ⟨_, hget⟩
    · rw [hsame]
      exact hb.1
    · exact fun c hc => hout c (compounds_at (at_eq hget ▸ hc))

/-! ## The common kind of pieces -/

/-- What a pass leaves in the kind of a plain piece was there before, or is new. -/
theorem Passes.kind_marks {p : Piece} {kind : Value} {w : Walked Memory Value} (hplain : p.plain = true)
    (h : Passes category keepComments n (.children (p.value kind)) t qs w) (hf : w.fault = none) :
    ∃ kind', w.value.get? "kind" = some kind' ∧ ∀ m ∈ kind'.marks, m ∈ kind.marks ∨ t.next ≤ m := by
  have hvalue : p.value kind
      = .object p.mark (("type", NodeType.variableDeclaration.value) :: ("kind", kind) :: p.fields) := by
    rw [Piece.value, Piece.head, if_pos hplain]
    rfl
  rw [hvalue] at h
  -- the kind is the second field, after the type
  cases h with
  | exhausted => cases hf
  | object hw hfields _ =>
    cases hfields with
    | exhausted => cases hf
    | fieldStop => cases hf
    | field _ htype hfault hlater =>
      cases hlater with
      | exhausted => cases hf
      | fieldStop => cases hf
      | @field _ _ _ _ _ _ _ _ _ _ here _ _ hkind hfault' _ =>
        obtain ⟨o, ho⟩ := exists_owner ((Value.object p.mark _).isA .program)
        refine ⟨here.value, rfl, fun m hm => ?_⟩
        rcases ((hkind.achieved hfault').visited o ho).origin m hm with hold | hnew
        · exact .inl hold
        · exact .inr (Nat.le_trans ((htype.achieved hfault).visited o ho).next_le hnew.1)

/-- What a piece leaves in the common kind was there before, or is new. -/
theorem Passes.current_kind_marks {p : Piece} {rest : List Piece} {kind : Value} {w : Walked Memory Value}
    (hw : (Stage.pieces kind (p :: rest)).Walkable t)
    (h : Passes category keepComments n (.children (p.value (t.current kind))) t qs w) (hf : w.fault = none) :
    ∀ m ∈ (w.trail.current kind).marks, m ∈ (t.current kind).marks ∨ t.next ≤ m := by
  rcases hw.current_kind (h.achieved hf) with ⟨_, hsame⟩ | ⟨hplain, hget⟩
  · rw [hsame]
    exact fun m hm => .inl hm
  · obtain ⟨kind', hget', hmarks⟩ := h.kind_marks hplain hf
    obtain rfl := Option.some.inj (hget'.symm.trans hget)
    exact hmarks

/-! ## What was not edited -/

/-- Of a part of `tree` that was not edited: what is pending in it was pending in `tree`, and its parts are parts of
`tree` or new. Of a part that was edited: nothing is pending in it. -/
def Native (tree : Value) (next : Nat) (pend : List Nat) (parts : List Value) : Prop :=
  ∀ m ∈ pend, m ∈ tree.pending ∧ ∀ c ∈ parts, next ≤ c.mark ∨ c ∈ tree.compounds

theorem Native.sub {tree : Value} {pend pend' : List Nat} {parts parts' : List Value} (h : Native tree next pend parts)
    (hpend : ∀ m ∈ pend', m ∈ pend) (hparts : ∀ c ∈ parts', c ∈ parts) : Native tree next pend' parts' :=
  fun m hm => ⟨(h m (hpend m hm)).1, fun c hc => (h m (hpend m hm)).2 c (hparts c hc)⟩

/-- Each field that is walked through is native. -/
def NativeFields (tree : Value) (next : Nat) (program : Bool) (fs : Fields) : Prop :=
  ∀ f ∈ fs, Syntax.metadataKeys.contains f.1 = false → Native tree next (pendingSlot program f.2) f.2.compounds

theorem Native.fields {tree : Value} {program : Bool} {fs : Fields}
    (h : Native tree next (pendingFields program fs) (compoundsFields fs)) : NativeFields tree next program fs := by
  intro f hf hkey
  refine h.sub (fun m hm => mem_pendingFields hf hkey hm) fun c hc => ?_
  rw [compoundsFields_eq]
  exact List.mem_flatMap.mpr ⟨f, hf, hc⟩

/-- Each part of a stage is native. -/
def Stage.Native (tree : Value) (next : Nat) : Stage → Trail Memory → Prop
  | .children (.object m fs), _ => NativeFields tree next ((Value.object m fs).isA .program) fs
  | .children _, _ => True
  | .fields program _ _ todo, _ => NativeFields tree next program todo
  | .slot program _ key v, _ =>
    Syntax.metadataKeys.contains key = false → Lift.Native tree next (pendingSlot program v) v.compounds
  | .items program _ _ todo, _ => ∀ x ∈ todo, Lift.Native tree next (pendingItems program [x]) x.compounds
  | .pieces kind ps, t => Lift.Native tree next (pendingSlot false (t.current kind)) (t.current kind).compounds ∧
    ∀ p ∈ ps, Lift.Native tree next (pendingFields false p.fields) (compoundsFields p.fields)

namespace Native

variable {tree v : Value} {program : Bool} {mark : Nat}

/-- The fields of a node. -/
theorem children (h : Native tree next v.pending v.compounds) (t : Trail Memory) :
    (Stage.children v).Native tree next t := by
  cases v with
  | object m fs => exact (h.sub (fun m hm => hm) fun c hc => List.mem_cons_of_mem _ hc).fields
  | _ => trivial

/-- A node among the items of a list. -/
theorem item (h : Native tree next (pendingItems program [v]) v.compounds) (hnode : v.isNode = true)
    (t : Trail Memory) : (Stage.children v).Native tree next t :=
  (h.sub (fun _ hm => mem_pendingItems List.mem_cons_self hnode hm) fun _ hc => hc).children t

/-- The items of a list. -/
theorem list {xs : List Value}
    (h : Native tree next (pendingSlot program (.list mark xs)) (Value.list mark xs).compounds) :
    ∀ x ∈ xs, Native tree next (pendingItems program [x]) x.compounds := by
  intro x hx
  refine h.sub (fun m hm => ?_) fun c hc => mem_compounds_list.mpr (.inr ⟨x, hx, hc⟩)
  obtain ⟨before, after, rfl⟩ := List.append_of_mem hx
  rw [pendingSlot, pendingItems_append, ← List.singleton_append, pendingItems_append]
  exact List.mem_append_right _ (List.mem_append_right _ (List.mem_append_left _ hm))

/-- A statement that is split was given, and is one of the statements that are going to be split. -/
theorem splits (h : Native tree next (pendingItems true [v]) v.compounds) (hload : Statement.loads v = true)
    (hbelow : ∀ m ∈ tree.marks, m < next) (honce : ∀ m, tree.marks.count m ≤ 1) : v ∈ Lift.splits tree := by
  have hnode := Statement.isNode_of_loads hload
  have hmem : v.mark ∈ pendingItems true [v] := by
    rw [pendingItems, if_pos hnode, hload, Bool.and_self, if_pos rfl]
    exact List.mem_cons_self
  obtain ⟨hpend, hparts⟩ := h v.mark hmem
  rcases hparts v (mem_compounds_self hnode) with hnew | hold
  · exact absurd (hbelow _ (mem_marks_of_pending tree hpend)) (Nat.not_lt.mpr hnew)
  · exact mem_splits honce hold hload hpend

/-- The pieces of a statement. -/
theorem opened {kind : Value} {r : Replacement} {ps : List Piece} {t' : Trail Memory}
    (h : Native tree next (pendingItems true [v]) v.compounds) (hle : next ≤ t.next)
    (hopen : Statement.Opened keepComments v r kind ps t t') (hkind : t'.current kind = kind) :
    (Stage.pieces kind ps).Native tree next t' := by
  have hnode := Statement.isNode_of_loads hopen.loads
  have hv : Native tree next v.pending v.compounds :=
    h.sub (fun _ hm => mem_pendingItems List.mem_cons_self hnode hm) fun _ hc => hc
  refine ⟨?_, fun p hp m hm => ?_⟩
  · rw [hkind]
    exact hv.sub hopen.parted.kindPending hopen.parted.kindIn
  · have hplaced := hopen.parted.placed p hp
    obtain ⟨hpend, hparts⟩ := hv m (hplaced.pending m hm)
    refine ⟨hpend, fun c hc => ?_⟩
    rcases hplaced.parts c hc with ⟨hnew, _⟩ | hold
    · exact .inl (Nat.le_trans hle hnew)
    · exact hparts c hold

end Native

namespace Stage.Walkable

variable {tree kind : Value} {p : Piece} {rest : List Piece}

/-- The first piece. -/
theorem native_piece (hw : (Stage.pieces kind (p :: rest)).Walkable t)
    (h : (Stage.pieces kind (p :: rest)).Native tree next t) :
    (Stage.children (p.value (t.current kind))).Native tree next t := by
  have hA := hw.notProgram p List.mem_cons_self (t.current kind)
  obtain ⟨hkind, hps⟩ := h
  show NativeFields tree next ((p.value (t.current kind)).isA .program) (p.head (t.current kind) ++ p.fields)
  rw [hA]
  intro f hf hkey
  rcases List.mem_append.mp hf with hf | hf
  · unfold Piece.head at hf
    split at hf
    · rcases List.mem_cons.mp hf with rfl | hf
      · exact fun m hm => absurd hm List.not_mem_nil
      · rw [List.mem_singleton.mp hf]
        exact hkind
    · exact absurd hf List.not_mem_nil
  · exact (hps p List.mem_cons_self).fields f hf hkey

/-- The pieces that follow: a piece that edited the kind has left nothing pending in it. -/
theorem native_rest {out : Value} {t₁ : Trail Memory} (hw : (Stage.pieces kind (p :: rest)).Walkable t)
    (h : (Stage.pieces kind (p :: rest)).Native tree next t)
    (hfirst : Rebuilt category keepComments (p.value (t.current kind)) out t t₁) :
    (Stage.pieces kind rest).Native tree next t₁ := by
  refine ⟨?_, (List.forall_mem_cons.mp h.2).2⟩
  rcases (hw.nextPiece hfirst).2.pending with hnil | ⟨hsame, _⟩
  · rw [hnil]
    exact fun m hm => absurd hm List.not_mem_nil
  · rw [hsame]
    exact h.1

end Stage.Walkable

/-! ## In how many places -/

/-- The mark `k` is in a kind that several pieces are going to have. -/
def Shared (tree : Value) (k : Nat) : Prop := ∃ e ∈ splits tree, 1 < Statement.plains e ∧ k ∈ (e.at "kind").marks

/-- How often a mark occurs in a stage. The common kind of pieces counts once, if a piece has it. -/
def Stage.occurrences (k : Nat) : Stage → Trail Memory → Nat
  | .children v, _ => v.marks.count k
  | .fields _ _ _ todo, _ => (marksFields todo).count k
  | .slot _ _ _ v, _ => v.marks.count k
  | .items _ _ done todo, _ => (marksItems (done ++ todo)).count k
  | .pieces kind ps, t => (if ps.any Piece.plain then (t.current kind).marks.count k else 0) +
      (marksItems (ps.map Piece.own)).count k

/-- How often a mark occurs in what a stage returns. -/
def Stage.left (k : Nat) : (stage : Stage) → stage.task.Result → Nat
  | .children _, out => out.marks.count k
  | .fields .., out => (marksFields out).count k
  | .slot .., out => out.marks.count k
  | .items .., out => (marksItems out).count k
  | .pieces .., out => (marksItems out).count k

/-- If a mark is in the common kind of pieces, one of them has it at most. -/
def Stage.Sole (k : Nat) : Stage → Trail Memory → Prop
  | .pieces kind ps, t => k ∈ (t.current kind).marks → ps.countP Piece.plain ≤ 1
  | _, _ => True

section

variable {k : Nat} {v kind : Value} {ps : List Piece} {t' : Trail Memory}

/-- The pieces of a statement hold a mark as often as the statement does. -/
theorem Stage.Walkable.occurrences_opened {owner : List Value → Value} {done rest : List Value} {r : Replacement}
    (hw : (Stage.items true owner done (v :: rest)).Walkable t) (hpos : 0 < k) (hk : k < t.next)
    (hopen : Statement.Opened keepComments v r kind ps t t') :
    (Stage.pieces kind ps).occurrences k t' ≤ v.marks.count k := by
  have hcount := hopen.parted.count k hpos
  rw [given, if_neg (by omega)] at hcount
  rw [Stage.occurrences, hw.current_opened hopen]
  split <;> omega

/-- A mark that several pieces would share is shared in the tree that was given. -/
theorem Stage.Walkable.sole_opened {tree : Value} {owner : List Value → Value} {done rest : List Value}
    {r : Replacement} (hw : (Stage.items true owner done (v :: rest)).Walkable t)
    (hopen : Statement.Opened keepComments v r kind ps t t') (hsplit : v ∈ splits tree) (hshared : ¬Shared tree k) :
    (Stage.pieces kind ps).Sole k t' := by
  intro hmem
  rw [hw.current_opened hopen] at hmem
  obtain ⟨_, _, _, hr, _⟩ := hw
  have hrv := Walk.item_ready (Statement.isNode_of_loads hopen.loads) hr
  have hplains := (Statement.entries_split hopen.loads (fun m hm => (hrv.bounded m hm).1) hopen.split hopen.nodes
    hopen.parted).1
  refine Nat.not_lt.mp fun hlt => hshared ⟨v, hsplit, hplains ▸ hlt, ?_⟩
  rwa [at_eq hopen.parted.kindOf]

end

/-- One piece, and then the others: what stood in one place does not come into two. -/
theorem Stage.Walkable.occurrences_piece {k : Nat} {kind : Value} {p : Piece} {rest : List Piece}
    {w : Walked Memory Value} (hw : (Stage.pieces kind (p :: rest)).Walkable t)
    (h : Passes category keepComments n (.children (p.value (t.current kind))) t qs w) (hf : w.fault = none)
    (hk : k < t.next) (hsole : (Stage.pieces kind (p :: rest)).Sole k t) :
    (Stage.children (p.value (t.current kind))).occurrences k t + (Stage.pieces kind rest).occurrences k w.trail
      ≤ (Stage.pieces kind (p :: rest)).occurrences k t ∧ (Stage.pieces kind rest).Sole k w.trail := by
  have hback (hmem : k ∈ (w.trail.current kind).marks) : k ∈ (t.current kind).marks :=
    (h.current_kind_marks hw hf k hmem).elim id fun hnew => absurd hk (Nat.not_lt.mpr hnew)
  have hcountP := List.countP_cons (p := Piece.plain) (a := p) (l := rest)
  refine ⟨?_, fun hmem => Nat.le_trans (by rw [hcountP]; exact Nat.le_add_right ..) (hsole (hback hmem))⟩
  rw [Stage.occurrences, Stage.occurrences, Stage.occurrences, Piece.count_marks_value, List.map_cons, marksItems_cons,
    List.count_append, List.any_cons]
  rcases hw.current_kind (h.achieved hf) with ⟨hplain, hsame⟩ | ⟨hplain, _⟩
  · rw [hsame, hplain, Bool.false_or, if_neg Bool.false_ne_true]
    omega
  · rw [hplain, Bool.true_or, if_pos rfl]
    -- where another piece has the kind as well, the mark is not in it
    have hnone : (if rest.any Piece.plain then (w.trail.current kind).marks.count k else 0) = 0 := by
      split
      · rename_i hany
        refine List.count_eq_zero.mpr fun hmem => ?_
        have hone := hsole (hback hmem)
        have hrest := List.countP_pos_iff.mpr (List.any_eq_true.mp hany)
        rw [hcountP, if_pos hplain] at hone
        omega
      · rfl
    rw [hnone]
    omega

/-- **Nothing comes into two places** but what is in a kind that pieces share. -/
theorem Passes.left_le {tree : Value} {k : Nat} {w : Walked Memory stage.task.Result}
    (h : Passes category keepComments n stage t qs w) (hf : w.fault = none) (hbelow : ∀ m ∈ tree.marks, m < next)
    (honce : ∀ m, tree.marks.count m ≤ 1) (hpos : 0 < k) (hk : k < next) (hshared : ¬Shared tree k)
    (hle : next ≤ t.next) (hsole : stage.Sole k t) (hnative : stage.Native tree next t) :
    stage.left k w.value ≤ stage.occurrences k t := by
  induction h with
  | exhausted _ => cases hf
  | object _ _ _ ih =>
    have hfields := ih hf hle trivial hnative
    simp only [Stage.left, Stage.occurrences, marks_object, List.count_cons] at hfields ⊢
    omega
  | noFields _ => exact Nat.le_refl _
  | fieldStop _ _ _ _ => cases hf
  | field hw hhere hfault _ ih ih' =>
    obtain ⟨o, ho⟩ := exists_owner _
    have hnext := ((hhere.achieved hfault).visited o ho).next_le
    obtain ⟨hv, hrest⟩ := List.forall_mem_cons.mp hnative
    have hfirst := ih hfault hle trivial hv
    have hlater := ih' hf (Nat.le_trans hle hnext) trivial hrest
    simp only [Stage.left, Stage.occurrences, marksFields_cons, List.count_append] at hfirst hlater ⊢
    omega
  | metadata _ _ => exact Nat.le_refl _
  | slotList _ hkey _ ih =>
    have hitems := ih hf hle trivial (hnative hkey).list
    simp only [Stage.left, Stage.occurrences, marks_list, List.count_cons, List.nil_append] at hitems ⊢
    omega
  | slotOther _ _ _ _ => exact Nat.le_refl _
  | slotFault _ _ _ _ => cases hf
  | slotKeep _ hkey hnode hask _ ih =>
    have hv := hnative hkey
    rw [pendingSlot_node _ hnode] at hv
    exact ih hf (Nat.le_trans hle (Visitor.ask_keeps hask).2) trivial (hv.children _)
  | slotSplice _ _ _ _ => cases hf
  | noItems _ => rw [Stage.left, Stage.occurrences, List.append_nil]
  | itemOther _ _ _ ih =>
    have hlater := ih hf hle trivial (List.forall_mem_cons.mp hnative).2
    rwa [Stage.occurrences, List.append_assoc] at hlater
  | itemFault _ _ _ => cases hf
  | itemKeepStop _ _ _ _ _ _ => cases hf
  | itemKeep _ hnode hask hchildren hfault _ ih ih' =>
    obtain ⟨hv, hrest⟩ := List.forall_mem_cons.mp hnative
    have hle' := Nat.le_trans hle (Visitor.ask_keeps hask).2
    have hfirst := ih hfault hle' trivial (hv.item hnode _)
    have hlater := ih' hf (Nat.le_trans hle' (hchildren.achieved hfault).visited.next_le) trivial hrest
    simp only [Stage.left, Stage.occurrences, marksItems_append, marksItems_cons, marksItems_nil, List.count_append,
      List.append_nil] at hfirst hlater ⊢
    omega
  | itemSpliceStop _ _ _ _ _ _ => cases hf
  | itemSplice hw hask hopen hpieces hfault _ ih ih' =>
    obtain ⟨hv, hrest⟩ := List.forall_mem_cons.mp hnative
    have hle' := Nat.le_trans hle (Visitor.ask_keeps hask).2
    have hsplit := hv.splits hopen.loads hbelow honce
    have hfirst := ih hfault hle' (hw.sole_opened hopen hsplit hshared) (hv.opened hle hopen (hw.current_opened hopen))
    have hopened := hw.occurrences_opened hpos (Nat.lt_of_lt_of_le hk hle) hopen
    have hlater := ih' hf (Nat.le_trans hle' ((hpieces.achieved hfault).visited .null).next_le) trivial hrest
    simp only [Stage.left, Stage.occurrences, marksItems_append, marksItems_cons, List.count_append]
      at hfirst hopened hlater ⊢
    omega
  | noPieces _ => exact Nat.zero_le _
  | pieceStop _ _ _ _ => cases hf
  | piece hw hchildren hfault _ ih ih' =>
    obtain ⟨hsum, hsole'⟩ := hw.occurrences_piece hchildren hfault (Nat.lt_of_lt_of_le hk hle) hsole
    have hfirst := ih hfault hle trivial (hw.native_piece hnative)
    have hlater := ih' hf (Nat.le_trans hle (hchildren.achieved hfault).visited.next_le) hsole'
      (hw.native_rest hnative (hchildren.achieved hfault))
    simp only [Stage.left, marksItems_cons, List.count_append] at hfirst hlater ⊢
    omega

end Lift

/-! ## The nodes of a tree and its compounds -/

namespace Value

mutual
/-- The nodes below an object are among its parts, each in its place. -/
theorem reached_sublist : (v : Value) → v.isObject = true → (v :: v.reached.map (·.2)).Sublist v.compounds
  | .null, h | .bool _, h | .int _, h | .double _, h | .text _, h | .list .., h | .tuple _, h => by cases h
  | .object m fs, _ => .cons_cons _ (reachedFields_sublist (.object m fs) fs)

theorem reachedFields_sublist (o : Value) :
    (fs : List (String × Value)) → ((reachedFields o fs).map (·.2)).Sublist (compoundsFields fs)
  | [] => .slnil
  | (key, v) :: rest => by
    rw [reachedFields, compoundsFields, List.map_append]
    refine .append ?_ (reachedFields_sublist o rest)
    split
    · exact List.nil_sublist _
    · exact reachedSlot_sublist o v

theorem reachedSlot_sublist (o : Value) : (v : Value) → ((reachedSlot o v).map (·.2)).Sublist v.compounds
  | .null | .bool _ | .int _ | .double _ | .text _ => .slnil
  | .tuple _ => List.nil_sublist _
  | .list m xs => .cons _ (reachedItems_sublist o xs)
  | .object m fs => by
    rw [reachedSlot]
    split
    · exact .cons_cons _ (reachedFields_sublist (.object m fs) fs)
    · exact List.nil_sublist _

theorem reachedItems_sublist (o : Value) :
    (xs : List Value) → ((reachedItems o xs).map (·.2)).Sublist (compoundsItems xs)
  | [] => .slnil
  | v :: rest => by
    rw [reachedItems, compoundsItems, List.map_append]
    refine .append ?_ (reachedItems_sublist o rest)
    split
    · rename_i hnode
      exact reached_sublist v (isObject_of_isNode hnode)
    · exact List.nil_sublist _
end

end Value

/-! ## The pass -/

namespace Lift

theorem Passes.isObject {category : Value} {keepComments : Bool} {n : Nat} {v : Value} {t : Trail Memory}
    {qs : List Question} {w : Walked Memory Value} (h : Passes category keepComments n (.children v) t qs w)
    (hf : w.fault = none) : w.value.isObject = true := by
  cases h with
  | exhausted => cases hf
  | object => rfl

/-- A node that is rejected twice is in a kind that pieces share. -/
theorem shared_of_rejected_twice {category : Value} {keepComments : Bool} {sink : Diagnostics} {tree : Value}
    (hjson : tree.isJson = true) (hfault : (run category keepComments sink tree).fault = none) {k : Nat}
    (htwice : 1 < ((run category keepComments sink tree).rejected.map mark).count k) : Shared (placed tree) k := by
  have hdone := run_completed hjson hfault
  obtain ⟨hbound, honce⟩ := marks_stamp_json hjson (Nat.succ_pos tree.topMark)
  obtain ⟨t, hask, hwalk, hrun⟩ := run_of_returned hfault
  obtain ⟨qs, hpasses⟩ := (outset_walkable hjson hask).passes category keepComments (fuel tree)
  have hpass : Passes category keepComments (fuel tree) (.children (placed tree)) t qs
    (Walk.children (visitor category keepComments) (fuel tree) (placed tree) t) := hpasses
  generalize Walk.children (visitor category keepComments) (fuel tree) (placed tree) t = w at hpass hwalk hrun
  have htree : (run category keepComments sink tree).tree = w.value := by
    rw [hrun]
    exact (hpass.achieved hwalk).settled.refresh
  rw [hdone.rejected, htree] at htwice
  have hmarked := hdone.marked
  rw [htree] at hmarked
  have hsub : ((w.value.visits.map (·.2)).filter Statement.loads).Sublist w.value.compounds := by
    rw [map_snd_visits]
    exact List.filter_sublist.trans (reached_sublist _ (hpass.isObject hwalk))
  -- the node is a candidate, so it was given
  obtain ⟨x, hx, rfl⟩ := List.mem_map.mp (List.count_pos_iff.mp (Nat.lt_trans Nat.zero_lt_one htwice))
  have hold : x.mark < (outset sink tree).next := by
    refine hpass.loadsBelow hwalk (fun c hc _ => (hbound _ (List.mem_map_of_mem hc)).2) x (hsub.subset hx) ?_
    exact (List.mem_filter.mp hx).2
  -- unless it is shared, it stands in one place
  refine Classical.byContradiction fun hshared => Nat.not_lt.mpr ?_ htwice
  have hle := hpass.left_le hwalk (fun m hm => (hbound m hm).2) honce
    (hmarked _ (List.mem_map_of_mem (hsub.subset hx))) hold hshared (Visitor.ask_keeps hask).2 trivial
    (Native.children (fun m hm => ⟨hm, fun c hc => .inr hc⟩) t)
  exact Nat.le_trans ((hsub.map mark).count_le _) (Nat.le_trans hle (honce _))

/-- **The diagnostics of the pass.** After a pass that returns, no candidate in the tree is owned by a program; the
rejected nodes are the candidates of the tree, place by place in the order of a walk over it; each of them has its
warning; and one object is rejected at two places only if it is in a kind that pieces share. -/
theorem run_reports_candidates (category : Value) (keepComments : Bool) (sink : Diagnostics) (tree : Value)
    (hjson : tree.isJson = true) (hfault : (run category keepComments sink tree).fault = none) :
    let r := run category keepComments sink tree
    (∀ p ∈ r.tree.visits, ∃ b, Statement.isCandidate p.2 = .ok b ∧ (b = true → isProgram p.1 = false)) ∧
      r.rejected = (r.tree.visits.map (·.2)).filter Statement.loads ∧
      (∃ ws, r.sink.warnings = sink.warnings ++ ws ∧ List.Forall₂ (Warning.About category) r.rejected ws) ∧
      ∀ k, 1 < (r.rejected.map mark).count k → Shared (placed tree) k := by
  have hdone := run_completed hjson hfault
  exact ⟨hdone.clean, hdone.rejected, hdone.warned.warnings, fun k => shared_of_rejected_twice hjson hfault⟩

/-- A program of one statement, with two declarators that load nothing and one that does. A declaration that loads a
module stands in its kind. -/
def Sample.sharing : Value :=
  .new [("type", NodeType.program.value), ("body", .newList [
    .new [("type", NodeType.variableDeclaration.value), ("kind", function),
      ("declarations", .newList [declarator (name "a") .null, declarator (name "b") (load "m"),
        declarator (name "c") .null])]])]

theorem run_reports_candidates_sample :
    let r := run (.text "commonjs") true (.empty .standard false) Sample.program
    Sample.program.isJson = true ∧ r.fault = none ∧
      r.rejected = (r.tree.visits.map (·.2)).filter Statement.loads ∧
      r.sink.warnings = [⟨3, rootLevelMessage, "commonjs"⟩] ∧
      -- both statements that have the kind reject the declaration in it
      (run (.text "commonjs") true (.empty .standard false) Sample.sharing).rejected.map mark = [6, 6] ∧
      Shared (placed Sample.sharing) 6 :=
  ⟨by decide +kernel, by decide +kernel, (run_reports_candidates _ _ _ _ (by decide +kernel) (by decide +kernel)).2.1,
    by decide +kernel, by decide +kernel,
    (run_reports_candidates (.text "commonjs") true (.empty .standard false) Sample.sharing (by decide +kernel)
      (by decide +kernel)).2.2.2 6 (by decide +kernel)⟩

end Lift
end EsmLift
