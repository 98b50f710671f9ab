import EsmLift.Proofs.Fuel
import EsmLift.Standard

/-!
# `Proofs.Interruption` — what a pass that is stopped leaves behind

A fault can stop the pass anywhere, below a statement or between two of them. It never leaves a statement half
replaced: all pieces of a candidate are put into the list before the walk goes on. If the root is the only program,
only its lists are edited, one after another and each from the front. So the tree that is left behind is the given one
with some lists of the root rewritten, one list rewritten up to a point, and the rest as it was.

## Contents

* `Lift.Still`, `Lift.Passes.still`: where nothing is pending nothing is edited, fault or not;
* `Cut`, `Lift.Passes.items_cut`: the items of a program, up to the fault;
* `SlotCut`, `Lift.Passes.fields_cut`: the fields of the program, up to the fault;
* `Lift.rewritten`, `Lift.run_interrupted`.
-/

namespace EsmLift

open Value

/-! ## Where nothing is pending -/

/-- A candidate of a program is not kept. -/
theorem Lift.not_loads_of_keep {category : Value} {keepComments : Bool} {v owner : Value} {t t' : Trail Memory}
    (howner : owner.isA .program = true)
    (hask : (visitor category keepComments).ask v (some owner) t = (.ok .keep, t')) : Statement.loads v = false := by
  rcases ask_cases category keepComments v (some owner) t with
    ⟨fault, t'', h⟩ | ⟨hc, _⟩ | ⟨_, hp, _⟩ | ⟨_, _, r, _, h⟩
  · rw [hask] at h; cases h
  · rw [Statement.loads, hc]
  · have hprogram : owner.isA .program = false := hp
    rw [howner] at hprogram
    cases hprogram
  · rw [hask] at h; cases h

/-- An item of a list that is kept is no candidate of a program. -/
theorem Lift.Stage.Walkable.not_loads {category : Value} {keepComments program : Bool} {owner : List Value → Value}
    {done rest : List Value} {v : Value} {t t' : Trail Memory}
    (hw : (Stage.items program owner done (v :: rest)).Walkable t)
    (hask : (visitor category keepComments).ask v (some (owner (done ++ v :: rest))) t = (.ok .keep, t')) :
    (program && Statement.loads v) = false := by
  obtain ⟨howner, _, _, _, _⟩ := hw
  cases program with
  | false => rfl
  | true => exact not_loads_of_keep (howner _) hask

namespace Lift

/-- What was given is as it was, and nothing was edited. -/
structure Still {α : Type} (given : α) (t : Trail Memory) (w : Walked Memory α) : Prop where
  value : w.value = given
  edited : w.edited = false
  revisions : w.trail.revisions = t.revisions
  next_le : t.next ≤ w.trail.next

theorem Still.trans {α : Type} {given : α} {t t' : Trail Memory} {w : Walked Memory α} (h : Still given t' w)
    (ht : t'.revisions = t.revisions ∧ t.next ≤ t'.next) : Still given t w :=
  ⟨h.value, h.edited, h.revisions.trans ht.1, Nat.le_trans ht.2 h.next_le⟩

/-- Nothing is pending, and the kind of pieces is up to date. -/
def Stage.Quiet : Stage → Trail Memory → Prop
  | .children v, _ => v.pending = []
  | .fields program _ _ todo, _ => pendingFields program todo = []
  | .slot program _ key v, _ => (if Syntax.metadataKeys.contains key then [] else pendingSlot program v) = []
  | .items program _ _ todo, _ => pendingItems program todo = []
  | .pieces kind ps, t => t.current kind = kind ∧ ∀ p ∈ ps, (p.value kind).pending = []

namespace Stage.Quiet

variable {program : Bool} {mark : Nat} {key : String} {v kind : Value} {t t' : Trail Memory}

/-- The first field, and those that follow. -/
theorem field {done rest : Fields} (h : (Stage.fields program mark done ((key, v) :: rest)).Quiet t) :
    (∀ owner t', (Stage.slot program owner key v).Quiet t') ∧
      ∀ done' t', (Stage.fields program mark done' rest).Quiet t' := by
  have hnil : pendingFields program ((key, v) :: rest) = [] := h
  rw [pendingFields] at hnil
  obtain ⟨hv, hrest⟩ := List.append_eq_nil_iff.mp hnil
  exact ⟨fun _ _ => hv, fun _ _ => hrest⟩

/-- A node in a field. -/
theorem kept {owner : Value → Value} (h : (Stage.slot program owner key v).Quiet t)
    (hkey : Syntax.metadataKeys.contains key = false) (hnode : v.isNode = true) : (Stage.children v).Quiet t' := by
  have hnil : (if Syntax.metadataKeys.contains key then [] else pendingSlot program v) = [] := h
  rw [hkey, if_neg Bool.false_ne_true, pendingSlot_node program hnode] at hnil
  exact hnil

/-- The items of a list. -/
theorem list {owner : Value → Value} {xs : List Value} (h : (Stage.slot program owner key (.list mark xs)).Quiet t)
    (hkey : Syntax.metadataKeys.contains key = false) (owner' : List Value → Value) :
    (Stage.items program owner' [] xs).Quiet t := by
  have hnil : (if Syntax.metadataKeys.contains key then [] else pendingSlot program (.list mark xs)) = [] := h
  rw [hkey, if_neg Bool.false_ne_true, pendingSlot] at hnil
  exact (List.append_eq_nil_iff.mp hnil).2

variable {owner : List Value → Value} {done rest : List Value}

/-- The items that follow. -/
theorem next (h : (Stage.items program owner done (v :: rest)).Quiet t) (done' : List Value) (t' : Trail Memory) :
    (Stage.items program owner done' rest).Quiet t' := by
  have hnil : pendingItems program (v :: rest) = [] := h
  rw [pendingItems] at hnil
  exact (List.append_eq_nil_iff.mp hnil).2

/-- An item is no candidate of a program. -/
theorem not_loads (h : (Stage.items program owner done (v :: rest)).Quiet t) (hnode : v.isNode = true) :
    (program && Statement.loads v) = false := by
  have hnil : pendingItems program (v :: rest) = [] := h
  rw [pendingItems, if_pos hnode] at hnil
  have hself := (List.append_eq_nil_iff.mp (List.append_eq_nil_iff.mp hnil).1).1
  cases hload : program && Statement.loads v with
  | false => rfl
  | true => rw [if_pos hload] at hself; cases hself

/-- An item that is a node. -/
theorem keptItem (h : (Stage.items program owner done (v :: rest)).Quiet t) (hnode : v.isNode = true) :
    (Stage.children v).Quiet t' := by
  have hnil : pendingItems program (v :: rest) = [] := h
  rw [pendingItems, if_pos hnode] at hnil
  exact (List.append_eq_nil_iff.mp (List.append_eq_nil_iff.mp hnil).1).2

variable {p : Piece} {others : List Piece}

/-- The first piece. -/
theorem piece (h : (Stage.pieces kind (p :: others)).Quiet t) :
    (Stage.children (p.value (t.current kind))).Quiet t := by
  obtain ⟨hkind, hps⟩ := h
  rw [hkind]
  exact hps p List.mem_cons_self

/-- The pieces that follow. -/
theorem nextPiece (h : (Stage.pieces kind (p :: others)).Quiet t) (hrev : t'.revisions = t.revisions) :
    (Stage.pieces kind others).Quiet t' := by
  obtain ⟨hkind, hps⟩ := h
  refine ⟨?_, (List.forall_mem_cons.mp hps).2⟩
  rw [Trail.current, hrev]
  exact hkind

end Stage.Quiet

variable {category : Value} {keepComments : Bool} {n : Nat} {stage : Stage} {t : Trail Memory} {qs : List Question}

/-- **Where nothing is pending nothing is edited**, whatever stops the walk. -/
theorem Passes.still {w : Walked Memory stage.task.Result} (h : Passes category keepComments n stage t qs w)
    (hq : stage.Quiet t) : Still stage.task.given t w := by
  have hidle {α : Type} {given : α} {t : Trail Memory} {fault : Option Fault} : Still given t ⟨given, false, fault, t⟩ :=
    ⟨rfl, rfl, rfl, Nat.le_refl _⟩
  induction h with
  | exhausted _ | noFields _ | metadata _ _ | slotOther _ _ _ _ | noPieces _ => exact hidle
  | object _ _ _ ih =>
    have hw := ih hq
    exact ⟨congrArg (Value.object _) hw.value, rfl, hw.revisions, hw.next_le⟩
  | fieldStop _ _ _ ih =>
    have hhere := ih (hq.field.1 _ _)
    refine ⟨?_, hhere.edited, hhere.revisions, hhere.next_le⟩
    dsimp only
    rw [hhere.value]
    rfl
  | field _ _ _ _ ih ih' =>
    have hhere := ih (hq.field.1 _ _)
    have hlater := (ih' (hq.field.2 _ _)).trans ⟨hhere.revisions, hhere.next_le⟩
    refine ⟨?_, ?_, hlater.revisions, hlater.next_le⟩
    · dsimp only
      rw [hhere.value, hlater.value]
      rfl
    · dsimp only
      rw [hhere.edited, hlater.edited]
      rfl
  | slotList _ hkey _ ih =>
    have hw := ih (hq.list hkey _)
    refine ⟨?_, rfl, ?_, ?_⟩
    · exact congrArg (Value.list _) hw.value
    · dsimp only
      rw [hw.edited, if_neg Bool.false_ne_true, hw.revisions]
    · dsimp only
      rw [hw.edited, if_neg Bool.false_ne_true]
      exact hw.next_le
  | slotFault _ _ _ hask => exact hidle.trans (Visitor.ask_keeps hask)
  | slotSplice _ _ _ hask => exact hidle.trans (Visitor.ask_keeps hask)
  | slotKeep _ hkey hnode hask _ ih => exact (ih (hq.kept hkey hnode)).trans (Visitor.ask_keeps hask)
  | noItems _ => exact ⟨(List.append_nil _).symm, rfl, rfl, Nat.le_refl _⟩
  | itemOther _ _ _ ih =>
    have hw := ih (hq.next _ _)
    exact ⟨hw.value.trans (List.append_assoc ..), hw.edited, hw.revisions, hw.next_le⟩
  | itemFault _ _ hask => exact hidle.trans (Visitor.ask_keeps hask)
  | itemKeepStop _ hnode hask _ _ ih =>
    have hw := (ih (hq.keptItem hnode)).trans (Visitor.ask_keeps hask)
    refine ⟨?_, rfl, hw.revisions, hw.next_le⟩
    dsimp only
    rw [hw.value]
    rfl
  | itemKeep _ hnode hask _ _ _ ih ih' =>
    have hw := (ih (hq.keptItem hnode)).trans (Visitor.ask_keeps hask)
    have hlater := (ih' (hq.next _ _)).trans ⟨hw.revisions, hw.next_le⟩
    refine ⟨hlater.value.trans ?_, hlater.edited, hlater.revisions, hlater.next_le⟩
    show (_ ++ [_]) ++ _ = _
    rw [hw.value, List.append_assoc]
    rfl
  | itemSpliceStop _ _ hopen _ _ _ | itemSplice _ _ hopen _ _ _ _ _ =>
    have hload := hq.not_loads (Statement.isNode_of_loads hopen.loads)
    rw [hopen.loads] at hload
    cases hload
  | pieceStop _ _ _ ih =>
    have hkind := hq.1
    have hw := ih hq.piece
    refine ⟨?_, rfl, hw.revisions, hw.next_le⟩
    dsimp only
    rw [hw.value, hkind]
    rfl
  | piece _ _ _ _ ih ih' =>
    have hkind := hq.1
    have hw := ih hq.piece
    have hlater := (ih' (hq.nextPiece hw.revisions)).trans ⟨hw.revisions, hw.next_le⟩
    refine ⟨?_, rfl, hlater.revisions, hlater.next_le⟩
    dsimp only
    rw [hw.value, hkind, hlater.value]
    rfl

end Lift

/-! ## The items of a program -/

/-- A candidate can be split. -/
def Statement.Splits (keepComments : Bool) (e : Value) : Prop :=
  loads e = true → ∃ r, split keepComments e = .ok r

/-- The walk went through items of a program up to a point, from trail `t` to trail `t'`. The first `k` items were
replaced, and `out` stands in the place of all of them. -/
structure Cut (keepComments : Bool) (k : Nat) (todo out : List Value) (edited : Bool) (t t' : Trail Lift.Memory) :
    Prop where
  next_le : t.next ≤ t'.next
  revisions : t'.revisions = t.revisions
  origin : ∀ m ∈ marksItems out, m ∈ marksItems todo ∨ t.next ≤ m ∧ m < t'.next
  settled : ∀ x ∈ out, x.Settled t.revisions
  erased : out.map erase
    = ((todo.map erase).take k).flatMap (Statement.replaced keepComments) ++ (todo.map erase).drop k
  splits : ∀ x ∈ (todo.map erase).take k, Statement.Splits keepComments x
  spliced : edited = true → todo.any Statement.loads = true
  kept : edited = false → out = todo

namespace Cut

variable {keepComments : Bool} {t t₁ t₂ : Trail Lift.Memory} {v : Value} {first rest out : List Value} {k : Nat}

/-- Nothing was replaced. -/
theorem none {todo : List Value} (hle : t.next ≤ t₁.next) (hrev : t₁.revisions = t.revisions)
    (hs : ∀ x ∈ todo, x.Settled t.revisions) : Cut keepComments 0 todo todo false t t₁ where
  next_le := hle
  revisions := hrev
  origin _ hm := .inl hm
  settled := hs
  erased := rfl
  splits _ hx := absurd hx List.not_mem_nil
  spliced h := absurd h Bool.false_ne_true
  kept _ := rfl

/-- What takes the place of one item. -/
structure Step (keepComments : Bool) (v : Value) (first : List Value) (edited : Bool) (t t' : Trail Lift.Memory) :
    Prop where
  next_le : t.next ≤ t'.next
  revisions : t'.revisions = t.revisions
  origin : ∀ m ∈ marksItems first, m ∈ v.marks ∨ t.next ≤ m ∧ m < t'.next
  settled : ∀ x ∈ first, x.Settled t.revisions
  erased : first.map erase = Statement.replaced keepComments v.erase
  splits : Statement.Splits keepComments v.erase
  spliced : edited = true → Statement.loads v = true
  kept : edited = false → first = [v]

/-- An item that is no candidate stays. -/
theorem Step.keep (hle : t.next ≤ t₁.next) (hrev : t₁.revisions = t.revisions) (hs : v.Settled t.revisions)
    (hload : Statement.loads v = false) : Step keepComments v [v] false t t₁ where
  next_le := hle
  revisions := hrev
  origin m hm := by
    rw [marksItems_cons, marksItems_nil, List.append_nil] at hm
    exact .inl hm
  settled x hx := by
    rw [List.mem_singleton.mp hx]
    exact hs
  erased := by rw [Statement.replaced_of_not_loads (by rw [Statement.loads_erase, hload]), List.map_singleton]
  splits h := by
    rw [Statement.loads_erase, hload] at h
    cases h
  spliced h := absurd h Bool.false_ne_true
  kept _ := rfl

/-- One item, and then the others. -/
theorem cons {edited edited' : Bool} (h₁ : Step keepComments v first edited t t₁)
    (h₂ : Cut keepComments k rest out edited' t₁ t₂) :
    Cut keepComments (k + 1) (v :: rest) (first ++ out) (edited || edited') t t₂ where
  next_le := Nat.le_trans h₁.next_le h₂.next_le
  revisions := h₂.revisions.trans h₁.revisions
  origin m hm := by
    have hle₁ := h₁.next_le
    have hle₂ := h₂.next_le
    rw [marksItems_append] at hm
    rw [marksItems_cons]
    rcases List.mem_append.mp hm with hm | hm
    · exact (h₁.origin m hm).imp (List.mem_append_left _) fun h => by omega
    · exact (h₂.origin m hm).imp (List.mem_append_right _) fun h => by omega
  settled x hx := by
    rcases List.mem_append.mp hx with hx | hx
    · exact h₁.settled x hx
    · exact h₁.revisions ▸ h₂.settled x hx
  erased := by
    rw [List.map_append, h₁.erased, h₂.erased, List.map_cons, List.take_succ_cons, List.drop_succ_cons,
      List.flatMap_cons, List.append_assoc]
  splits := by
    rw [List.map_cons, List.take_succ_cons]
    exact List.forall_mem_cons.mpr ⟨h₁.splits, h₂.splits⟩
  spliced h := by
    rw [List.any_cons]
    rcases Bool.or_eq_true_iff.mp h with h | h
    · rw [h₁.spliced h, Bool.true_or]
    · rw [h₂.spliced h, Bool.or_true]
  kept h := by
    obtain ⟨h, h'⟩ := Bool.or_eq_false_iff.mp h
    rw [h₁.kept h, h₂.kept h']
    rfl

end Cut

namespace Statement.Opened

variable {keepComments : Bool} {v kind : Value} {r : Replacement} {ps : List Piece} {t t' t₁ : Trail Lift.Memory}

/-- The pieces of a statement are up to date, if the statement is. -/
theorem settled_value (h : Opened keepComments v r kind ps t t') (ht : t.Sound) (hs : v.Settled t.revisions)
    (hr : t.Ready v.pending v.marks) : ∀ x ∈ ps.map (Piece.value kind), x.Settled t'.revisions := by
  intro x hx
  obtain ⟨p, hp, rfl⟩ := List.mem_map.mp hx
  obtain ⟨ht', hkind, hown, _⟩ := h.walkable ht hs hr
  have hcurrent : (p.value kind).refresh t'.revisions = p.value kind := by
    rw [Piece.refresh_value (hown p hp).1 (hown p hp).2]
    exact congrArg (fun k => p.value k) hkind
  rw [← hcurrent]
  exact settled_refresh ht'.closed _

/-- Nothing is pending in the pieces of a statement, if nothing is in the statement. -/
theorem quiet (h : Opened keepComments v r kind ps t t') (ht : t.Sound) (hs : v.Settled t.revisions)
    (hr : t.Ready v.pending v.marks) (hp : v.pending = []) : (Lift.Stage.pieces kind ps).Quiet t' := by
  refine ⟨(h.walkable ht hs hr).2.1, fun p hmem => ?_⟩
  obtain ⟨type, htype, hA⟩ := (h.parted.placed p hmem).node kind
  refine List.eq_nil_iff_forall_not_mem.mpr fun m hm => ?_
  have hin := Piece.pending_value_subset (isA_unique hA htype) hm
  have hpend : m ∈ v.pending := by
    rcases List.mem_append.mp hin with hin | hin
    · exact h.parted.kindPending m hin
    · exact (h.parted.placed p hmem).pending m hin
  rw [hp] at hpend
  exact absurd hpend List.not_mem_nil

/-- All pieces of a candidate take its place at once. -/
theorem step (h : Opened keepComments v r kind ps t t') (ht : t.Sound) (hs : v.Settled t.revisions)
    (hr : t.Ready v.pending v.marks) (hle : t'.next ≤ t₁.next) (hrev : t₁.revisions = t'.revisions) :
    Cut.Step keepComments v (ps.map (Piece.value kind)) true t t₁ where
  next_le := Nat.le_trans h.parted.le hle
  revisions := hrev.trans h.revisions
  origin m hm := by
    obtain ⟨x, hx, hmx⟩ := List.mem_flatMap.mp hm
    obtain ⟨p, hp, rfl⟩ := List.mem_map.mp hx
    have hin : m ∈ kind.marks ++ marksItems (ps.map Piece.own) := by
      rcases Piece.mem_marks_value hmx with hown | ⟨_, hkind⟩
      · exact List.mem_append_right _ (List.mem_flatMap.mpr ⟨p.own, List.mem_map_of_mem hp, hown⟩)
      · exact List.mem_append_left _ hkind
    exact (h.parted.mem_marks (fun k hk => (hr.bounded k hk).1) ht.pos hin).imp id fun hnew => by omega
  settled := by
    rw [← h.revisions]
    exact h.settled_value ht hs hr
  erased := by
    rw [h.replaced_erase, List.map_map]
    rfl
  splits _ := ⟨r.erase, by rw [split_erase, h.split]; rfl⟩
  spliced _ := h.loads
  kept hk := absurd hk.symm Bool.false_ne_true

end Statement.Opened

namespace Lift

/-- The walk `w` through the items `todo` behind `done` replaced some of them, and all if there was no fault. -/
def CutAt (keepComments : Bool) (done todo : List Value) (t : Trail Memory) (w : Walked Memory (List Value)) : Prop :=
  ∃ k out, w.value = done ++ out ∧ Cut keepComments k todo out w.edited t w.trail ∧ (w.fault = none → k = todo.length)

variable {category : Value} {keepComments : Bool} {n : Nat} {stage : Stage} {t t₁ : Trail Memory} {qs : List Question}

/-- The walk was stopped before the first item was replaced. -/
theorem CutAt.stopped {done todo : List Value} {fault : Fault} (hs : ∀ x ∈ todo, x.Settled t.revisions)
    (hkeeps : t₁.revisions = t.revisions ∧ t.next ≤ t₁.next) :
    CutAt keepComments done todo t ⟨done ++ todo, false, some fault, t₁⟩ :=
  ⟨0, todo, rfl, .none hkeeps.2 hkeeps.1 hs, nofun⟩

/-- Something took the place of the first item, and the walk went on behind that. -/
theorem CutAt.cons {done first rest : List Value} {v : Value} {edited : Bool} {w : Walked Memory (List Value)}
    (hfirst : Cut.Step keepComments v first edited t t₁) (h : CutAt keepComments (done ++ first) rest t₁ w) :
    CutAt keepComments done (v :: rest) t { w with edited := edited || w.edited } := by
  obtain ⟨k, out, hvalue, hcut, hk⟩ := h
  exact ⟨k + 1, first ++ out, by rw [hvalue, List.append_assoc], .cons hfirst hcut, fun hf => by rw [hk hf]; rfl⟩

/-- The items of a program, below which nothing is pending. -/
def Stage.ItemsCut (keepComments : Bool) :
    (stage : Stage) → Trail Memory → Walked Memory stage.task.Result → Prop
  | .items program _ done todo, t, w =>
    program = true → pendingItems false todo = [] → CutAt keepComments done todo t w
  | _, _, _ => True

/-- Nothing is pending below the first item, nor below those that follow. -/
theorem pending_of_pendingItems {v : Value} {rest : List Value} (h : pendingItems false (v :: rest) = []) :
    (v.isNode = true → v.pending = []) ∧ pendingItems false rest = [] := by
  rw [pendingItems, Bool.false_and, if_neg Bool.false_ne_true, List.nil_append] at h
  obtain ⟨hv, hrest⟩ := List.append_eq_nil_iff.mp h
  exact ⟨fun hnode => by rwa [if_pos hnode] at hv, hrest⟩

namespace Passes

/-- **The items of a program, up to the fault.** -/
theorem items_cut {w : Walked Memory stage.task.Result} (h : Passes category keepComments n stage t qs w) :
    stage.ItemsCut keepComments t w := by
  induction h with
  | @exhausted stage t hw =>
    cases stage with
    | items program owner done todo => exact fun _ _ => ⟨0, todo, rfl, .none (Nat.le_refl _) rfl hw.2.2.1, nofun⟩
    | _ => trivial
  | noItems hw => exact fun _ _ => ⟨0, [], (List.append_nil _).symm, .none (Nat.le_refl _) rfl hw.2.2.1, fun _ => rfl⟩
  | itemOther hw hnode _ ih =>
    intro hprogram hp
    obtain ⟨_, _, hs, _, _⟩ := hw
    have hload := Statement.loads_of_not_node hnode
    have hcut := CutAt.cons (.keep (Nat.le_refl _) rfl (hs _ List.mem_cons_self) hload)
      (ih hprogram (pending_of_pendingItems hp).2)
    rwa [Bool.false_or] at hcut
  | itemFault hw _ hask => exact fun _ _ => .stopped hw.2.2.1 (Visitor.ask_keeps hask)
  | itemKeepStop hw hnode hask hchildren _ _ =>
    intro _ hp
    have hstill := (hchildren.still ((pending_of_pendingItems hp).1 hnode)).trans (Visitor.ask_keeps hask)
    rw [hstill.value]
    exact .stopped hw.2.2.1 ⟨hstill.revisions, hstill.next_le⟩
  | itemKeep hw hnode hask hchildren _ _ _ ih =>
    intro hprogram hp
    obtain ⟨howner, _, hs, _, _⟩ := hw
    obtain ⟨hquiet, hrest⟩ := pending_of_pendingItems hp
    have hstill := (hchildren.still (hquiet hnode)).trans (Visitor.ask_keeps hask)
    have hload := not_loads_of_keep ((howner _).trans hprogram) hask
    have hlater := ih hprogram hrest
    rw [hstill.value] at hlater
    have hcut := CutAt.cons (.keep hstill.next_le hstill.revisions (hs _ List.mem_cons_self) hload) hlater
    rwa [Bool.false_or] at hcut
  | @itemSpliceStop n owner done rest v t t' r kind ps qs w fault hw _ hopen hpieces _ _ =>
    intro _ hp
    obtain ⟨_, ht, hs, hr, _⟩ := hw
    have hnode := Statement.isNode_of_loads hopen.loads
    have hv := hs _ List.mem_cons_self
    have hrv := Walk.item_ready hnode hr
    have hstill := hpieces.still (hopen.quiet ht hv hrv ((pending_of_pendingItems hp).1 hnode))
    have hstep := hopen.step ht hv hrv hstill.next_le hstill.revisions
    rw [hstill.value]
    -- all pieces are in the list, whichever of them stopped the walk
    have hrest : ∀ x ∈ rest, x.Settled w.trail.revisions := by
      rw [hstep.revisions]
      exact (List.forall_mem_cons.mp hs).2
    exact ⟨1, _, List.append_assoc .., Cut.cons hstep (.none (Nat.le_refl _) rfl hrest), nofun⟩
  | itemSplice hw _ hopen hpieces _ _ _ ih =>
    intro hprogram hp
    obtain ⟨_, ht, hs, hr, _⟩ := hw
    obtain ⟨hquiet, hrest⟩ := pending_of_pendingItems hp
    have hnode := Statement.isNode_of_loads hopen.loads
    have hv := hs _ List.mem_cons_self
    have hrv := Walk.item_ready hnode hr
    have hstill := hpieces.still (hopen.quiet ht hv hrv (hquiet hnode))
    have hlater := ih hprogram hrest
    rw [hstill.value] at hlater
    have hcut := CutAt.cons (hopen.step ht hv hrv hstill.next_le hstill.revisions) hlater
    rwa [Bool.true_or] at hcut
  | _ => trivial

end Passes

end Lift

/-! ## The fields of a program -/

namespace Lift

/-- A list whose first `k` items are replaced, each candidate by all its pieces. What is no list stays. -/
def rewritten (keepComments : Bool) (k : Nat) : Value → Value
  | .list m xs => .list m ((xs.take k).flatMap (Statement.replaced keepComments) ++ xs.drop k)
  | v => v

/-- How many items of a field the pass looks at: all items of a list, unless the field is metadata. -/
def extent (f : String × Value) : Nat := if Syntax.metadataKeys.contains f.1 then 0 else f.2.width

/-- A field of a program once the pass is through with it. -/
def finished (keepComments : Bool) (f : String × Value) : String × Value :=
  (f.1, rewritten keepComments (extent f) f.2)

/-- The fields `fs` of a program are left as `out`: some fields are finished, one is rewritten up to a point, and those
that follow are as they were. Each candidate that was rewritten could be split. -/
def Interrupted (keepComments : Bool) (fs out : Fields) : Prop :=
  ∃ before key v after k, fs = before ++ (key, v) :: after ∧
    out = before.map (finished keepComments) ++ (key, rewritten keepComments k v) :: after ∧
    (∀ f ∈ before, ∀ x ∈ (Require.listed f.2).take (extent f), Statement.Splits keepComments x) ∧
    ∀ x ∈ (Require.listed v).take k, Statement.Splits keepComments x

variable {keepComments : Bool}

theorem rewritten_zero (v : Value) : rewritten keepComments 0 v = v := by
  cases v <;> rfl

theorem rewritten_other (k : Nat) {v : Value} (hl : ∀ m xs, v ≠ .list m xs) :
    rewritten keepComments k v = v ∧ Require.listed v = [] := by
  cases v with
  | list m xs => exact absurd rfl (hl m xs)
  | _ => exact ⟨rfl, rfl⟩

/-- The fault is in the first field. -/
theorem Interrupted.here {key : String} {v : Value} {rest : Fields} {k : Nat}
    (h : ∀ x ∈ (Require.listed v).take k, Statement.Splits keepComments x) :
    Interrupted keepComments ((key, v) :: rest) ((key, rewritten keepComments k v) :: rest) :=
  ⟨[], key, v, rest, k, rfl, rfl, fun _ hf => absurd hf List.not_mem_nil, h⟩

/-- The fault is in a field that follows. -/
theorem Interrupted.later {f : String × Value} {rest out : Fields}
    (hf : ∀ x ∈ (Require.listed f.2).take (extent f), Statement.Splits keepComments x)
    (h : Interrupted keepComments rest out) :
    Interrupted keepComments (f :: rest) (finished keepComments f :: out) := by
  obtain ⟨before, key, v, after, k, rfl, rfl, hbefore, hv⟩ := h
  exact ⟨f :: before, key, v, after, k, rfl, rfl, List.forall_mem_cons.mpr ⟨hf, hbefore⟩, hv⟩

end Lift

/-- The walk went through the value of a field of a program up to a point: the first `k` items were replaced, if it is
a list. -/
structure SlotCut (keepComments : Bool) (key : String) (v out : Value) (k : Nat) (t t' : Trail Lift.Memory) : Prop where
  next_le : t.next ≤ t'.next
  revised : Revised (if Syntax.metadataKeys.contains key then [] else pendingSlot true v) t.revisions t'.revisions
  origin : ∀ m ∈ out.marks, m ∈ v.marks ∨ t.next ≤ m ∧ m < t'.next
  settled : out.Settled t'.revisions
  isText : ∀ s, out.isText s = v.isText s
  erased : out.erase = Lift.rewritten keepComments k v.erase
  splits : ∀ x ∈ (Require.listed v.erase).take k, Statement.Splits keepComments x

namespace SlotCut

variable {keepComments : Bool} {key : String} {v : Value} {k : Nat} {t t' : Trail Lift.Memory}

/-- The value is as it was. -/
theorem same (ht : t.Sound) (hs : v.Settled t.revisions) (hrev : t'.revisions = t.revisions) (hle : t.next ≤ t'.next)
    (hk : Lift.rewritten keepComments k v.erase = v.erase)
    (hsplits : ∀ x ∈ (Require.listed v.erase).take k, Statement.Splits keepComments x) :
    SlotCut keepComments key v v k t t' where
  next_le := hle
  revised := by
    rw [hrev]
    exact .refl ht.closed
  origin _ hm := .inl hm
  settled := by
    rw [hrev]
    exact hs
  isText _ := rfl
  erased := hk.symm
  splits := hsplits

/-- The value is as it was, and no item was looked at. -/
theorem untouched (ht : t.Sound) (hs : v.Settled t.revisions) (hrev : t'.revisions = t.revisions)
    (hle : t.next ≤ t'.next) : SlotCut keepComments key v v 0 t t' :=
  .same ht hs hrev hle (Lift.rewritten_zero _) fun _ hx => absurd hx List.not_mem_nil

end SlotCut

/-- A list of a program, once its items were walked through up to a point. -/
theorem Cut.slot {keepComments : Bool} {key : String} {mark k : Nat} {xs out : List Value} {edited : Bool}
    {t t₁ : Trail Lift.Memory} (h : Cut keepComments k xs out edited t t₁)
    (hk : Syntax.metadataKeys.contains key = false) (ht : t.Sound) (hs : (Value.list mark xs).Settled t.revisions)
    (hr : t.Ready (pendingSlot true (.list mark xs)) (Value.list mark xs).marks) :
    SlotCut keepComments key (.list mark xs) (.list mark out) k t
      (if edited then t₁.recordList mark out else t₁) := by
  have herased : (Value.list mark out).erase = Lift.rewritten keepComments k (Value.list mark xs).erase := by
    rw [erase_list, erase_list, Lift.rewritten, h.erased]
  have hsplits : ∀ x ∈ (Require.listed (Value.list mark xs).erase).take k, Statement.Splits keepComments x := by
    rw [erase_list]
    exact h.splits
  cases edited with
  | false =>
    obtain rfl : out = xs := h.kept rfl
    exact .same ht hs h.revisions h.next_le herased.symm hsplits
  | true =>
    have hself : mark ∈ if (true && xs.any Statement.loads) = true then [mark] else [] := by
      rw [if_pos (by rw [h.spliced rfl]; rfl)]
      exact List.mem_cons_self
    rw [pendingSlot, marks_list] at hr
    have hmark := hr.bounded mark List.mem_cons_self
    -- the list is pending itself, so the new items do not hold it
    have hout : mark ∉ marksItems out := by
      intro hm
      rcases h.origin mark hm with hin | hnew
      · exact hr.head_not_mem (List.mem_append_left _ hself) hin
      · omega
    have hrecord := Revised.recordList (h.revisions ▸ ht.closed) hmark.1 (h.revisions ▸ h.settled) hout
    refine ⟨h.next_le, ?_, fun m hm => ?_, ?_, fun _ => rfl, herased, hsplits⟩
    · rw [hk, if_neg Bool.false_ne_true, pendingSlot, if_pos rfl, ← h.revisions]
      refine hrecord.1.mono fun m hm => List.mem_append_left _ ?_
      rw [List.mem_singleton.mp hm]
      exact hself
    · rw [marks_list] at hm ⊢
      rcases List.mem_cons.mp hm with rfl | hm
      · exact .inl List.mem_cons_self
      · exact (h.origin m hm).imp (List.mem_cons_of_mem _) id
    · refine settled_list.mpr ⟨.inr hrecord.2, fun x hx => hrecord.1.keep x (h.revisions ▸ h.settled x hx) ?_⟩
      intro m hm hmem
      rw [List.mem_singleton.mp hmem] at hm
      exact hout (List.mem_flatMap.mpr ⟨x, hx, hm⟩)

/-- **The value of a field of a program, up to the fault.** -/
theorem Lift.Passes.slot_cut {category : Value} {keepComments : Bool} {n : Nat} {owner : Value → Value} {key : String}
    {v : Value} {t : Trail Memory} {qs : List Question} {w : Walked Memory Value}
    (h : Passes category keepComments n (.slot true owner key v) t qs w)
    (hp : (if Syntax.metadataKeys.contains key then [] else pendingSlot false v) = []) :
    ∃ k, SlotCut keepComments key v w.value k t w.trail ∧ (w.fault = none → k = extent (key, v)) := by
  obtain ⟨_, ht, hs, hr⟩ := h.walkable
  -- what is no list stays, and so does metadata
  have hstill (hnone : (if Syntax.metadataKeys.contains key then [] else pendingSlot true v) = [])
      (hk : rewritten keepComments (extent (key, v)) v.erase = v.erase)
      (hl : (Require.listed v.erase).take (extent (key, v)) = []) :
      ∃ k, SlotCut keepComments key v w.value k t w.trail ∧ (w.fault = none → k = extent (key, v)) := by
    have hw : Still v t w := h.still hnone
    refine ⟨extent (key, v), ?_, fun _ => rfl⟩
    rw [hw.value]
    exact .same ht hs hw.revisions hw.next_le hk (by rw [hl]; exact fun _ hx => absurd hx List.not_mem_nil)
  cases hkey : Syntax.metadataKeys.contains key with
  | true =>
    have hextent : extent (key, v) = 0 := if_pos hkey
    exact hstill (if_pos hkey) (by rw [hextent, rewritten_zero]) (by rw [hextent, List.take_zero])
  | false =>
    rw [hkey, if_neg Bool.false_ne_true] at hp hr
    by_cases hlist : ∃ mark xs, v = .list mark xs
    · obtain ⟨mark, xs, rfl⟩ := hlist
      cases h with
      | exhausted => exact ⟨0, .untouched ht hs rfl (Nat.le_refl _), nofun⟩
      | metadata _ hmeta => rw [hkey] at hmeta; cases hmeta
      | slotList _ _ hitems =>
        rw [pendingSlot] at hp
        obtain ⟨k, out, hvalue, hcut, hfault⟩ := hitems.items_cut rfl (List.append_eq_nil_iff.mp hp).2
        refine ⟨k, ?_, fun hf => ?_⟩
        · dsimp only
          rw [hvalue, List.nil_append]
          exact hcut.slot hkey ht hs hr
        · rw [hfault hf, extent, hkey]
          rfl
      | slotOther _ _ hno => exact absurd rfl (hno mark xs)
      | slotFault _ _ hnode | slotKeep _ _ hnode | slotSplice _ _ hnode => cases hnode
    · have hl (m : Nat) (xs : List Value) : v ≠ .list m xs := fun h => hlist ⟨m, xs, h⟩
      have hother := @rewritten_other keepComments (extent (key, v)) v.erase (erase_ne_list hl)
      have hsame : pendingSlot true v = pendingSlot false v := by
        cases v with
        | list m xs => exact absurd rfl (hl m xs)
        | _ => rfl
      exact hstill (by rw [hkey, if_neg Bool.false_ne_true, hsame, hp]) hother.1 (by rw [hother.2, List.take_nil])

namespace SlotCut

variable {keepComments : Bool} {k : Nat} {rest : Fields} {key : String} {v out : Value} {t t₁ : Trail Lift.Memory}

/-- The fields that follow are as they were. -/
theorem settled_rest (h : SlotCut keepComments key v out k t t₁)
    (hr : t.Ready (pendingFields true ((key, v) :: rest)) (marksFields ((key, v) :: rest)))
    (hs : ∀ g ∈ rest, g.2.Settled t.revisions) : ∀ g ∈ rest, g.2.Settled t₁.revisions := by
  rw [pendingFields, marksFields_cons] at hr
  intro g hg
  refine h.revised.keep _ (hs g hg) fun m hmg hm => ?_
  have hin : m ∈ v.marks := by
    split at hm
    · exact absurd hm List.not_mem_nil
    · exact mem_marks_of_pendingSlot true v hm
  exact hr.disjoint (List.mem_append_left _ hm) hin (List.mem_flatMap.mpr ⟨g, hg, hmg⟩)

/-- What is pending in the fields that follow is not in the first one. -/
theorem apart (h : SlotCut keepComments key v out k t t₁)
    (hr : t.Ready (pendingFields true ((key, v) :: rest)) (marksFields ((key, v) :: rest))) :
    ∀ m ∈ pendingFields true rest, m ∉ out.marks := by
  rw [pendingFields, marksFields_cons] at hr
  intro m hm hout
  have hin := mem_marks_of_pendingFields true rest hm
  rcases h.origin m hout with hold | hnew
  · exact hr.disjoint (List.mem_append_right _ hm) hold hin
  · have hlt := (hr.right.bounded m hin).2
    omega

end SlotCut

namespace Lift

/-- The fields of a program, below whose items nothing is pending. -/
def Stage.FieldsCut (keepComments : Bool) :
    (stage : Stage) → Trail Memory → Walked Memory stage.task.Result → Prop
  | .fields program _ _ todo, t, w => program = true → pendingFields false todo = [] →
    ∀ fault, w.fault = some fault → fault ≠ .exhausted →
      Revised (pendingFields true todo) t.revisions w.trail.revisions ∧
        (∀ f ∈ w.value, f.2.Settled w.trail.revisions) ∧
        Interrupted keepComments (todo.map fun f => (f.1, f.2.erase)) (w.value.map fun f => (f.1, f.2.erase))
  | _, _, _ => True

/-- **The fields of a program, up to the fault.** -/
theorem Passes.fields_cut {category : Value} {keepComments : Bool} {n : Nat} {stage : Stage} {t : Trail Memory}
    {qs : List Question} {w : Walked Memory stage.task.Result} (h : Passes category keepComments n stage t qs w) :
    stage.FieldsCut keepComments t w := by
  induction h with
  | @exhausted stage t _ =>
    cases stage with
    | fields => exact fun _ _ fault hfault hne => absurd (Option.some.inj hfault).symm hne
    | _ => trivial
  | noFields => exact fun _ _ fault hfault => by cases hfault
  | @fieldStop n mark program done rest key v t qs here fault hw hhere hfault _ =>
    rintro rfl hp _ _ _
    rw [pendingFields] at hp
    obtain ⟨_, _, hs, hr⟩ := hw
    obtain ⟨k, hcut, _⟩ := hhere.slot_cut (List.append_eq_nil_iff.mp hp).1
    refine ⟨hcut.revised.mono fun m hm => ?_, List.forall_mem_cons.mpr ⟨hcut.settled, ?_⟩, ?_⟩
    · rw [pendingFields]
      exact List.mem_append_left _ hm
    · exact hcut.settled_rest hr (List.forall_mem_cons.mp hs).2
    · rw [List.map_cons, List.map_cons, hcut.erased]
      exact .here hcut.splits
  | @field n mark program done rest key v t qs qs' here later hw hhere hfault _ _ ih =>
    rintro rfl hp fault hlater hne
    rw [pendingFields] at hp
    obtain ⟨hpv, hprest⟩ := List.append_eq_nil_iff.mp hp
    obtain ⟨_, _, _, hr⟩ := hw
    obtain ⟨k, hcut, hk⟩ := hhere.slot_cut hpv
    obtain ⟨hrevised, hsettled, hleft⟩ := ih rfl hprest fault hlater hne
    refine ⟨?_, List.forall_mem_cons.mpr ⟨?_, hsettled⟩, ?_⟩
    · refine (hcut.revised.trans hrevised).mono fun m hm => ?_
      rw [pendingFields]
      exact hm
    · exact hrevised.keep _ hcut.settled fun m hm hpend => hcut.apart hr m hpend hm
    · have hsame : extent (key, v.erase) = k := by rw [hk hfault, extent, extent, width_erase]
      rw [List.map_cons, List.map_cons, hcut.erased, ← hsame]
      exact .later (by rw [hsame]; exact hcut.splits) hleft
  | _ => trivial

end Lift

/-! ## The pass -/

/-- Nothing is pending in the fields of an object if no program is below it, whatever the object is. -/
theorem Value.pendingFields_of_no_program {o : Value} {fs : Fields}
    (h : ∀ p ∈ reachedFields o fs, p.2.isA .program = false) : pendingFields false fs = [] := by
  have hnode (x : Value) (hx : ∀ p ∈ (o, x) :: x.reached, p.2.isA .program = false) : x.pending = [] := by
    obtain ⟨hself, hbelow⟩ := List.forall_mem_cons.mp hx
    exact pending_of_no_program hself hbelow
  induction fs with
  | nil => rfl
  | cons f rest ih =>
    obtain ⟨key, v⟩ := f
    rw [reachedFields] at h
    rw [pendingFields, ih fun p hp => h p (List.mem_append_right _ hp), List.append_nil]
    split
    · rfl
    · rename_i hk
      rw [if_neg hk] at h
      cases v with
      | list m xs =>
        rw [pendingSlot, Bool.false_and, if_neg Bool.false_ne_true, List.nil_append]
        refine List.eq_nil_iff_forall_not_mem.mpr fun k hmem => ?_
        obtain ⟨x, hx, hn, hkx⟩ := exists_of_pendingItems hmem
        rw [hnode x fun p hp => h p (List.mem_append_left _ (mem_reachedItems hx hn hp))] at hkx
        exact absurd hkx List.not_mem_nil
      | object m gs =>
        cases hn : (Value.object m gs).isNode with
        | false => rw [pendingSlot, if_neg (by rw [hn]; exact Bool.false_ne_true)]
        | true =>
          rw [pendingSlot_node false hn]
          exact hnode _ fun p hp => h p (List.mem_append_left _ (by rw [reachedSlot_node o hn]; exact hp))
      | _ => rfl

/-- Nothing is pending in what takes the place of a statement, if nothing is in the statement. -/
theorem Statement.pending_replaced {keepComments : Bool} {e n : Value} (he : ∀ c ∈ e.compounds, c.isTuple = false)
    (hp : e.pending = []) (hn : n ∈ replaced keepComments e) : n.pending = [] := by
  have hself (heq : replaced keepComments e = [e]) : n.pending = [] := by
    rw [heq] at hn
    rw [List.mem_singleton.mp hn]
    exact hp
  cases hload : loads e with
  | false => exact hself (replaced_of_not_loads hload)
  | true =>
    cases hs : split keepComments e with
    | error fault => exact hself (replaced_of_error hs)
    | ok r =>
      obtain ⟨_, kind, declarations, ds, ps, hkind, hdecl, hds, hps, hnodes, _⟩ := split_ok hs
      rw [replaced_of_split hload hs, hnodes] at hn
      obtain ⟨p, hmem, rfl⟩ := List.mem_map.mp hn
      obtain ⟨type, htype, hA⟩ := (hps p hmem).node kind
      obtain ⟨m, ds', rfl⟩ := declarations_list hload he hdecl
      obtain rfl : ds' = ds := Except.ok.inj hds
      have hslot : pendingSlot false e = [] := by rw [pendingSlot_node false (isNode_of_loads hload), hp]
      -- what is pending in a piece is in the kind or in the declarators
      refine List.eq_nil_iff_forall_not_mem.mpr fun k hk => ?_
      have hin : k ∈ pendingSlot false e := by
        rcases List.mem_append.mp (Piece.pending_value_subset (isA_unique hA htype) hk) with hk | hk
        · exact (within_get? (isA_of_loads hload) (by decide) (by decide) hkind).pending k hk
        · refine (within_get? (isA_of_loads hload) (by decide) (by decide) hdecl).pending k ?_
          rw [pendingSlot]
          exact List.mem_append_right _ ((hps p hmem).pending k hk)
      rw [hslot] at hin
      exact absurd hin List.not_mem_nil

namespace Lift

/-- If nothing is pending below the items of a program, lifting replaces its candidates and does nothing else. -/
theorem liftedSlot_eq_rewritten (keepComments : Bool) {v : Value} (hv : ∀ c ∈ v.compounds, c.isTuple = false)
    (hp : pendingSlot false v = []) : liftedSlot keepComments true v = rewritten keepComments v.width v := by
  cases v with
  | list m xs =>
    rw [pendingSlot] at hp
    have hitems := (List.append_eq_nil_iff.mp hp).2
    rw [liftedSlot_list, rewritten, width, List.take_length, List.drop_length, List.append_nil]
    refine congrArg _ (List.flatMap_congr fun x hx => ?_)
    cases hn : x.isNode with
    | false =>
      rw [liftedItem_other keepComments true hn, Statement.replaced_of_not_loads (Statement.loads_of_not_node hn)]
    | true =>
      have hquiet : x.pending = [] := by
        refine List.eq_nil_iff_forall_not_mem.mpr fun k hk => ?_
        have hmem : k ∈ pendingItems false xs := mem_pendingItems hx hn hk
        rw [hitems] at hmem
        exact absurd hmem List.not_mem_nil
      rw [liftedItem_replaced keepComments hn]
      refine items_map_self fun n hmem => (lifted_eq_self keepComments n).1 ?_
      exact Statement.pending_replaced (fun c hc => hv c (mem_compounds_list.mpr (.inr ⟨x, hx, hc⟩))) hquiet hmem
  | object m fs =>
    refine (lifted_eq_self keepComments (.object m fs)).2 true ?_
    exact hp
  | _ => exact (lifted_eq_self keepComments _).2 true rfl

/-- A program in which nothing is pending below the items of its lists, after a pass that returns. -/
theorem lifted_program (keepComments : Bool) {fs : Fields} (hjson : (Value.object 0 fs).isJson = true)
    (hprogram : (Value.object 0 fs).isA .program = true) (hquiet : pendingFields false fs = []) :
    lifted keepComments (.object 0 fs) = .object 0 (fs.map (finished keepComments)) := by
  rw [lifted_object, hprogram]
  refine congrArg _ (List.map_congr_left fun f hf => ?_)
  obtain ⟨key, v⟩ := f
  refine congrArg (Prod.mk key) ?_
  unfold extent
  dsimp only
  split
  · rw [rewritten_zero]
  · rename_i hk
    refine liftedSlot_eq_rewritten keepComments (fun c hc => ?_) (List.eq_nil_iff_forall_not_mem.mpr fun k hkv => ?_)
    · exact (isJson_iff.mp hjson c (mem_compounds_object.mpr (.inr ⟨_, hf, hc⟩))).2
    · have hmem := mem_pendingFields hf (Bool.eq_false_iff.mpr hk) hkv
      rw [hquiet] at hmem
      exact absurd hmem List.not_mem_nil

variable (category : Value) (keepComments : Bool) (sink : Diagnostics) (tree : Value)

/-- A program is kept without a word. -/
theorem ask_program {v : Value} (h : v.isA .program = true) (owner : Option Value) (t : Trail Memory) :
    (visitor category keepComments).ask v owner t = (.ok .keep, t) := by
  have hc : Statement.isCandidate v = .ok false := by
    cases v with
    | object m fs =>
      have hno : (Value.object m fs).isA .variableDeclaration = false := isA_unique h (by decide)
      rw [Statement.isCandidate_object, if_neg (by rw [hno]; exact Bool.false_ne_true)]
    | _ => cases h
  rcases ask_cases category keepComments v owner t with
    ⟨fault, t', hask⟩ | ⟨_, hask⟩ | ⟨hc', _⟩ | ⟨hc', _⟩
  · unfold Visitor.ask visitor at hask
    dsimp only at hask
    rw [hc] at hask
    cases hask
  · exact hask
  · rw [hc] at hc'; cases hc'
  · rw [hc] at hc'; cases hc'

/-- A pass over a program walks through the fields of the root. -/
theorem run_program (hjson : tree.isJson = true) (hprogram : tree.isA .program = true) :
    ∃ mark fs qs w, placed tree = .object mark fs ∧
      Passes category keepComments (16 * tree.size + 15) (.fields true mark [] fs) (outset sink tree) qs w ∧
      (run category keepComments sink tree).fault = w.fault ∧
      (run category keepComments sink tree).tree = w.trail.current (.object mark w.value) ∧
      (run category keepComments sink tree).replacements.length = w.trail.memory.replacements.length := by
  have hA : (placed tree).isA .program = true := by rw [← regular_erase.isA, erase_placed, regular_erase.isA, hprogram]
  have hask := ask_program category keepComments hA none (outset sink tree)
  have hwalk := walk_eq tree (visitor category keepComments) (fuel tree) ⟨sink, [], []⟩
  rw [← outset, hask] at hwalk
  obtain ⟨qs, w, h⟩ := exists_passes category keepComments (fuel tree) (outset_walkable hjson hask)
  have heq := h.runs.eq_run
  dsimp only [Walk.Task.run] at heq
  dsimp only at hwalk
  rw [heq] at hwalk
  generalize hplaced : placed tree = root at h hA
  cases h with
  | object hw hfields _ =>
    rw [hA] at hfields
    refine ⟨_, _, qs, _, rfl, hfields, congrArg Outcome.fault hwalk, congrArg Outcome.tree hwalk, ?_⟩
    exact (List.length_map _).trans (congrArg (fun o => o.memory.replacements.length) hwalk)

variable {tree} in
/-- The only program in a tree, without marks; nothing is pending below its statements. -/
theorem only_program (hjson : tree.isJson = true) (honly : ∀ p ∈ tree.reached, p.2.isA .program = false) {mark : Nat}
    {fs : Fields} (hplaced : placed tree = .object mark fs) :
    tree = .object 0 (fs.map fun f => (f.1, f.2.erase)) ∧ pendingFields false (fs.map fun f => (f.1, f.2.erase)) = [] ∧
      pendingFields false fs = [] := by
  have herase : tree = .object 0 (fs.map fun f => (f.1, f.2.erase)) := by
    have h := erase_placed tree
    rw [hplaced, erase_of_json hjson, erase_object] at h
    exact h.symm
  rw [herase, reached] at honly
  have hquiet := pendingFields_of_no_program honly
  refine ⟨herase, hquiet, ?_⟩
  have h := pendingFields_erase false fs
  rw [eraseFields_eq_map, hquiet] at h
  exact List.map_eq_nil_iff.mp h.symm

/-- **A pass that is stopped leaves no statement half replaced.** The root is the only program that is reached. Then
some of its fields are as a pass that returns would leave them, one is rewritten up to a point, with all pieces of each
candidate before that point, and the other fields, like everything else, are as they were. -/
theorem run_interrupted (hjson : tree.isJson = true) (hprogram : tree.isA .program = true)
    (honly : ∀ p ∈ tree.reached, p.2.isA .program = false)
    (hfault : (run category keepComments sink tree).fault ≠ none) :
    ∃ fs out, tree = .object 0 fs ∧ (run category keepComments sink tree).tree.erase = .object 0 out ∧
      Interrupted keepComments fs out ∧ lifted keepComments tree = .object 0 (fs.map (finished keepComments)) := by
  obtain ⟨fault, hfault⟩ := Option.ne_none_iff_exists'.mp hfault
  have hne : fault ≠ .exhausted := fun h => run_fueled category keepComments sink hjson (h ▸ hfault)
  obtain ⟨mark, gs, qs, w, hplaced, hpass, hrun, htree, _⟩ :=
    run_program category keepComments sink tree hjson hprogram
  rw [hrun] at hfault
  obtain ⟨herase, hquiet, hbelow⟩ := only_program hjson honly hplaced
  obtain ⟨hrevised, hsettled, hleft⟩ := hpass.fields_cut rfl hbelow fault hfault hne
  refine ⟨_, _, herase, ?_, hleft, ?_⟩
  · -- the root itself was not edited, so it is up to date
    have hmark : mark ∉ pendingFields true gs := by
      have hready := outset_ready sink hjson
      rw [hplaced, pending, marks_object, ← hplaced, ← regular_erase.isA, erase_placed, regular_erase.isA, hprogram]
        at hready
      exact fun hm => hready.head_not_mem hm (mem_marks_of_pendingFields true gs hm)
    have hsettledRoot := settled_object.mpr ⟨.inl (hrevised.lookup_none hmark rfl), hsettled⟩
    rw [htree, Trail.current, hsettledRoot.refresh, erase_object]
  · rw [herase] at hjson hprogram ⊢
    exact lifted_program keepComments hjson hprogram hquiet

/-- A program whose second list stops the pass: a candidate, and a declaration that cannot be looked at. -/
def Sample.stopped : Value :=
  .new [("type", NodeType.program.value), ("body", .newList [Sample.declaration]),
    ("more", .newList [Sample.declaration, .new [("type", NodeType.variableDeclaration.value),
      ("declarations", .int 1)], Sample.declaration]),
    ("rest", .newList [Sample.declaration])]

theorem run_interrupted_sample :
    let r := run (.text "commonjs") true (.empty .standard false) Sample.stopped
    Sample.stopped.isJson = true ∧ Sample.stopped.isA .program = true ∧
      (∀ p ∈ Sample.stopped.reached, p.2.isA .program = false) ∧ r.fault ≠ none ∧
      ∃ fs out, Sample.stopped = .object 0 fs ∧ r.tree.erase = .object 0 out ∧ Interrupted true fs out ∧
        lifted true Sample.stopped = .object 0 (fs.map (finished true)) :=
  ⟨by decide +kernel, by decide +kernel, by decide +kernel, by decide +kernel,
    run_interrupted _ _ _ _ (by decide +kernel) (by decide +kernel) (by decide +kernel) (by decide +kernel)⟩

end Lift

end EsmLift
