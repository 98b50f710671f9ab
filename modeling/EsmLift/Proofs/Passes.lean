import EsmLift.Proofs.Rules
import EsmLift.Proofs.Splicing

/-!
# `Proofs.Passes` — the rules of the pass

The pass is a walk, and its visitor never puts a node in the place of another one and finds every statement it wants to
replace. So fewer rules are left than for walks in general, and more is known where they apply: what is walked through
is up to date and ready (`Stage.Walkable`), and new statements are pieces with a common kind. What every pass preserves
is shown rule by rule, by induction over `Passes`.

## Contents

* `Lift.Stage`, `Lift.Stage.Walkable`: what the pass is walking through, and what it needs for that;
* `Lift.Passes`: the rules; `Lift.Passes.runs`: they are rules of the walk;
* `Lift.Stage.Achieved`, `Lift.Passes.achieved`: a pass that is not stopped does what `Lift.lifted` says;
* `Lift.Stage.Walkable.passes`: the walk obeys the rules.
-/

namespace EsmLift

open Value

namespace Lift

/-- What the pass is walking through. `program` says whether the object around it is a program, and new statements are
pieces of one statement. -/
inductive Stage where
  | children (v : Value)
  | fields (program : Bool) (mark : Nat) (done todo : Fields)
  | slot (program : Bool) (owner : Value → Value) (key : String) (v : Value)
  | items (program : Bool) (owner : List Value → Value) (done todo : List Value)
  | pieces (kind : Value) (ps : List Piece)

namespace Stage

/-- The stage as a task of the walk. -/
@[reducible] def task : Stage → Walk.Task
  | children v => .children v
  | fields _ mark done todo => .fields mark done todo
  | slot _ owner key v => .slot owner key v
  | items _ owner done todo => .items owner done todo
  | pieces kind ps => .each (ps.map (Piece.value kind))

/-- What the pass needs for a stage: the owner is what it is said to be, everything is up to date and ready, and what was
walked through before holds nothing that is still pending. The common kind of pieces may be out of date. -/
@[reducible] def Walkable : Stage → Trail Memory → Prop
  | children v, t => v.isObject = true ∧ t.Sound ∧ v.Settled t.revisions ∧ t.Ready v.pending v.marks
  | fields program mark done todo, t =>
    (Value.object mark (done ++ todo)).isA .program = program ∧ t.Sound ∧ (∀ f ∈ todo, f.2.Settled t.revisions) ∧
      t.Ready (pendingFields program todo) (marksFields todo)
  | slot program owner key v, t =>
    (∀ w, (∀ s, w.isText s = v.isText s) → (owner w).isA .program = program) ∧ t.Sound ∧ v.Settled t.revisions ∧
      t.Ready (if Syntax.metadataKeys.contains key then [] else pendingSlot program v) v.marks
  | items program owner done todo, t =>
    (∀ ys, (owner ys).isA .program = program) ∧ t.Sound ∧ (∀ x ∈ todo, x.Settled t.revisions) ∧
      t.Ready (pendingItems program todo) (marksItems todo) ∧ ∀ m ∈ pendingItems program todo, m ∉ marksItems done
  | pieces kind ps, t =>
    t.Sound ∧ (∀ p ∈ ps, ∀ k, ∃ type : NodeType, type ≠ .program ∧ (p.value k).isA type = true) ∧
      (∀ p ∈ ps, ∀ k, Statement.isCandidate (p.value k) = .ok false) ∧
      (∀ p ∈ ps, p.own.Settled t.revisions ∧ t.revisions.lookup p.mark = none) ∧
      t.Ready (pendingSlot false (t.current kind) ++ ps.flatMap fun p => pendingFields false p.fields)
        ((t.current kind).marks ++ marksItems (ps.map Piece.own))

end Stage

variable (category : Value) (keepComments : Bool)

/-- **The rules of the pass.** -/
inductive Passes : Nat → (stage : Stage) → Trail Memory → List Question → Walked Memory stage.task.Result → Prop
  /-- Without fuel nothing is done. -/
  | exhausted {stage : Stage} {t : Trail Memory} (hw : stage.Walkable t) :
      Passes 0 stage t [] ⟨stage.task.given, false, some .exhausted, t⟩
  -- children
  | object {n mark : Nat} {fs : Fields} {t : Trail Memory} {qs : List Question} {w : Walked Memory Fields}
      (hw : (Stage.children (.object mark fs)).Walkable t)
      (hfields : Passes n (.fields ((Value.object mark fs).isA .program) mark [] fs) t qs w)
      (hedited : w.edited = false) :
      Passes (n + 1) (.children (.object mark fs)) t qs ⟨.object mark w.value, false, w.fault, w.trail⟩
  -- fields
  | noFields {n mark : Nat} {program : Bool} {done : Fields} {t : Trail Memory}
      (hw : (Stage.fields program mark done []).Walkable t) :
      Passes (n + 1) (.fields program mark done []) t [] ⟨[], false, none, t⟩
  | fieldStop {n mark : Nat} {program : Bool} {done rest : Fields} {key : String} {v : Value} {t : Trail Memory}
      {qs : List Question} {here : Walked Memory Value} {fault : Fault}
      (hw : (Stage.fields program mark done ((key, v) :: rest)).Walkable t)
      (hhere : Passes n (.slot program (fun w => .object mark (done ++ (key, w) :: rest)) key v) t qs here)
      (hfault : here.fault = some fault) :
      Passes (n + 1) (.fields program mark done ((key, v) :: rest)) t qs
        ⟨(key, here.value) :: rest, here.edited, some fault, here.trail⟩
  | field {n mark : Nat} {program : Bool} {done rest : Fields} {key : String} {v : Value} {t : Trail Memory}
      {qs qs' : List Question} {here : Walked Memory Value} {later : Walked Memory Fields}
      (hw : (Stage.fields program mark done ((key, v) :: rest)).Walkable t)
      (hhere : Passes n (.slot program (fun w => .object mark (done ++ (key, w) :: rest)) key v) t qs here)
      (hfault : here.fault = none)
      (hlater : Passes n (.fields program mark (done ++ [(key, here.value)]) rest) here.trail qs' later) :
      Passes (n + 1) (.fields program mark done ((key, v) :: rest)) t (qs ++ qs')
        ⟨(key, here.value) :: later.value, here.edited || later.edited, later.fault, later.trail⟩
  -- the value of a field
  | metadata {n : Nat} {program : Bool} {owner : Value → Value} {key : String} {v : Value} {t : Trail Memory}
      (hw : (Stage.slot program owner key v).Walkable t) (hkey : Syntax.metadataKeys.contains key = true) :
      Passes (n + 1) (.slot program owner key v) t [] ⟨v, false, none, t⟩
  | slotList {n : Nat} {program : Bool} {owner : Value → Value} {key : String} {mark : Nat} {xs : List Value}
      {t : Trail Memory} {qs : List Question} {w : Walked Memory (List Value)}
      (hw : (Stage.slot program owner key (.list mark xs)).Walkable t)
      (hkey : Syntax.metadataKeys.contains key = false)
      (hitems : Passes n (.items program (fun ys => owner (.list mark ys)) [] xs) t qs w) :
      Passes (n + 1) (.slot program owner key (.list mark xs)) t qs
        ⟨.list mark w.value, false, w.fault, if w.edited then w.trail.recordList mark w.value else w.trail⟩
  | slotOther {n : Nat} {program : Bool} {owner : Value → Value} {key : String} {v : Value} {t : Trail Memory}
      (hw : (Stage.slot program owner key v).Walkable t) (hkey : Syntax.metadataKeys.contains key = false)
      (hlist : ∀ m xs, v ≠ .list m xs) (hnode : v.isNode = false) :
      Passes (n + 1) (.slot program owner key v) t [] ⟨v, false, none, t⟩
  | slotFault {n : Nat} {program : Bool} {owner : Value → Value} {key : String} {v : Value} {t t' : Trail Memory}
      {fault : Fault} (hw : (Stage.slot program owner key v).Walkable t)
      (hkey : Syntax.metadataKeys.contains key = false) (hnode : v.isNode = true)
      (hask : (visitor category keepComments).ask v (some (owner v)) t = (.error fault, t')) :
      Passes (n + 1) (.slot program owner key v) t [(v, some (owner v))] ⟨v, false, some fault, t'⟩
  | slotKeep {n : Nat} {program : Bool} {owner : Value → Value} {key : String} {v : Value} {t t' : Trail Memory}
      {qs : List Question} {w : Walked Memory Value} (hw : (Stage.slot program owner key v).Walkable t)
      (hkey : Syntax.metadataKeys.contains key = false) (hnode : v.isNode = true)
      (hask : (visitor category keepComments).ask v (some (owner v)) t = (.ok .keep, t'))
      (hchildren : Passes n (.children v) t' qs w) :
      Passes (n + 1) (.slot program owner key v) t ((v, some (owner v)) :: qs) w
  | slotSplice {n : Nat} {program : Bool} {owner : Value → Value} {key : String} {v : Value} {t t' : Trail Memory}
      {r : Replacement} (hw : (Stage.slot program owner key v).Walkable t)
      (hkey : Syntax.metadataKeys.contains key = false) (hnode : v.isNode = true)
      (hask : (visitor category keepComments).ask v (some (owner v)) t = (.ok (.splice r), t')) :
      Passes (n + 1) (.slot program owner key v) t [(v, some (owner v))] ⟨v, false, some (.fieldSplice key), t'⟩
  -- the items of a list
  | noItems {n : Nat} {program : Bool} {owner : List Value → Value} {done : List Value} {t : Trail Memory}
      (hw : (Stage.items program owner done []).Walkable t) :
      Passes (n + 1) (.items program owner done []) t [] ⟨done, false, none, t⟩
  | itemOther {n : Nat} {program : Bool} {owner : List Value → Value} {done rest : List Value} {v : Value}
      {t : Trail Memory} {qs : List Question} {w : Walked Memory (List Value)}
      (hw : (Stage.items program owner done (v :: rest)).Walkable t) (hnode : v.isNode = false)
      (hlater : Passes n (.items program owner (done ++ [v]) rest) t qs w) :
      Passes (n + 1) (.items program owner done (v :: rest)) t qs w
  | itemFault {n : Nat} {program : Bool} {owner : List Value → Value} {done rest : List Value} {v : Value}
      {t t' : Trail Memory} {fault : Fault} (hw : (Stage.items program owner done (v :: rest)).Walkable t)
      (hnode : v.isNode = true)
      (hask : (visitor category keepComments).ask v (some (owner (done ++ v :: rest))) t = (.error fault, t')) :
      Passes (n + 1) (.items program owner done (v :: rest)) t [(v, some (owner (done ++ v :: rest)))]
        ⟨done ++ v :: rest, false, some fault, t'⟩
  | itemKeepStop {n : Nat} {program : Bool} {owner : List Value → Value} {done rest : List Value} {v : Value}
      {t t' : Trail Memory} {qs : List Question} {w : Walked Memory Value} {fault : Fault}
      (hw : (Stage.items program owner done (v :: rest)).Walkable t) (hnode : v.isNode = true)
      (hask : (visitor category keepComments).ask v (some (owner (done ++ v :: rest))) t = (.ok .keep, t'))
      (hchildren : Passes n (.children v) t' qs w) (hfault : w.fault = some fault) :
      Passes (n + 1) (.items program owner done (v :: rest)) t ((v, some (owner (done ++ v :: rest))) :: qs)
        ⟨done ++ w.value :: rest, false, some fault, w.trail⟩
  | itemKeep {n : Nat} {program : Bool} {owner : List Value → Value} {done rest : List Value} {v : Value}
      {t t' : Trail Memory} {qs qs' : List Question} {w : Walked Memory Value} {later : Walked Memory (List Value)}
      (hw : (Stage.items program owner done (v :: rest)).Walkable t) (hnode : v.isNode = true)
      (hask : (visitor category keepComments).ask v (some (owner (done ++ v :: rest))) t = (.ok .keep, t'))
      (hchildren : Passes n (.children v) t' qs w) (hfault : w.fault = none)
      (hlater : Passes n (.items program owner (done ++ [w.value]) rest) w.trail qs' later) :
      Passes (n + 1) (.items program owner done (v :: rest)) t ((v, some (owner (done ++ v :: rest))) :: (qs ++ qs'))
        later
  | itemSpliceStop {n : Nat} {owner : List Value → Value} {done rest : List Value} {v : Value} {t t' : Trail Memory}
      {r : Replacement} {kind : Value} {ps : List Piece} {qs : List Question} {w : Walked Memory (List Value)}
      {fault : Fault} (hw : (Stage.items true owner done (v :: rest)).Walkable t)
      (hask : (visitor category keepComments).ask v (some (owner (done ++ v :: rest))) t
        = (.ok (.splice ⟨v, ps.map (Piece.value kind)⟩), t'))
      (hopen : Statement.Opened keepComments v r kind ps t t') (hpieces : Passes n (.pieces kind ps) t' qs w)
      (hfault : w.fault = some fault) :
      Passes (n + 1) (.items true owner done (v :: rest)) t ((v, some (owner (done ++ v :: rest))) :: qs)
        ⟨done ++ w.value ++ rest, true, some fault, w.trail⟩
  | itemSplice {n : Nat} {owner : List Value → Value} {done rest : List Value} {v : Value} {t t' : Trail Memory}
      {r : Replacement} {kind : Value} {ps : List Piece} {qs qs' : List Question} {w later : Walked Memory (List Value)}
      (hw : (Stage.items true owner done (v :: rest)).Walkable t)
      (hask : (visitor category keepComments).ask v (some (owner (done ++ v :: rest))) t
        = (.ok (.splice ⟨v, ps.map (Piece.value kind)⟩), t'))
      (hopen : Statement.Opened keepComments v r kind ps t t') (hpieces : Passes n (.pieces kind ps) t' qs w)
      (hfault : w.fault = none) (hlater : Passes n (.items true owner (done ++ w.value) rest) w.trail qs' later) :
      Passes (n + 1) (.items true owner done (v :: rest)) t ((v, some (owner (done ++ v :: rest))) :: (qs ++ qs'))
        { later with edited := true }
  -- pieces of a statement
  | noPieces {n : Nat} {kind : Value} {t : Trail Memory} (hw : (Stage.pieces kind []).Walkable t) :
      Passes (n + 1) (.pieces kind []) t [] ⟨[], false, none, t⟩
  | pieceStop {n : Nat} {kind : Value} {p : Piece} {rest : List Piece} {t : Trail Memory} {qs : List Question}
      {w : Walked Memory Value} {fault : Fault} (hw : (Stage.pieces kind (p :: rest)).Walkable t)
      (hchildren : Passes n (.children (p.value (t.current kind))) t qs w) (hfault : w.fault = some fault) :
      Passes (n + 1) (.pieces kind (p :: rest)) t qs
        ⟨w.value :: rest.map (Piece.value kind), false, some fault, w.trail⟩
  | piece {n : Nat} {kind : Value} {p : Piece} {rest : List Piece} {t : Trail Memory} {qs qs' : List Question}
      {w : Walked Memory Value} {later : Walked Memory (List Value)} (hw : (Stage.pieces kind (p :: rest)).Walkable t)
      (hchildren : Passes n (.children (p.value (t.current kind))) t qs w) (hfault : w.fault = none)
      (hlater : Passes n (.pieces kind rest) w.trail qs' later) :
      Passes (n + 1) (.pieces kind (p :: rest)) t (qs ++ qs') ⟨w.value :: later.value, false, later.fault, later.trail⟩

variable {category : Value} {keepComments : Bool} {n : Nat} {stage : Stage} {t : Trail Memory} {qs : List Question}

/-! ## One stage after another -/

namespace Stage.Walkable

variable {program : Bool} {mark : Nat} {key : String} {v out : Value} {t' t₁ : Trail Memory}

/-- The fields of an object. -/
theorem object {fs : Fields} (h : (Stage.children (.object mark fs)).Walkable t) :
    (Stage.fields ((Value.object mark fs).isA .program) mark [] fs).Walkable t := by
  obtain ⟨_, ht, hs, hr⟩ := h
  exact ⟨rfl, ht, (settled_object.mp hs).2, hr.fields⟩

/-- The value of the first field. -/
theorem firstField {done rest : Fields} (h : (Stage.fields program mark done ((key, v) :: rest)).Walkable t) :
    (Stage.slot program (fun w => .object mark (done ++ (key, w) :: rest)) key v).Walkable t := by
  obtain ⟨hprogram, ht, hs, hr⟩ := h
  rw [pendingFields, marksFields_cons] at hr
  exact ⟨fun w hw => (Walk.isA_update hw .program).trans hprogram, ht, hs _ List.mem_cons_self, hr.left⟩

/-- The fields that follow. -/
theorem nextField {done rest : Fields} (h : (Stage.fields program mark done ((key, v) :: rest)).Walkable t)
    (hfirst : Reslotted category keepComments program key v out t t₁) :
    (Stage.fields program mark (done ++ [(key, out)]) rest).Walkable t₁ := by
  obtain ⟨hprogram, ht, hs, hr⟩ := h
  obtain ⟨ht₁, hs₁, hr₁, hprogram₁⟩ := hfirst.rest hprogram ht (List.forall_mem_cons.mp hs).2 hr
  exact ⟨hprogram₁, ht₁, hs₁, hr₁⟩

/-- The items of a list. -/
theorem list {owner : Value → Value} {xs : List Value} (h : (Stage.slot program owner key (.list mark xs)).Walkable t)
    (hkey : Syntax.metadataKeys.contains key = false) :
    (Stage.items program (fun ys => owner (.list mark ys)) [] xs).Walkable t := by
  obtain ⟨howner, ht, hs, hr⟩ := h
  rw [hkey, if_neg Bool.false_ne_true] at hr
  -- a list is no text, so the type of the owner does not depend on the items
  exact ⟨fun ys => howner _ fun s => rfl, ht, (settled_list.mp hs).2, hr.items, fun m _ => List.not_mem_nil⟩

/-- A node in a field that is kept. -/
theorem kept {owner : Value → Value} (h : (Stage.slot program owner key v).Walkable t)
    (hkey : Syntax.metadataKeys.contains key = false) (hnode : v.isNode = true) {answer : Except Fault Answer}
    (hask : (visitor category keepComments).ask v (some (owner v)) t = (answer, t')) :
    (Stage.children v).Walkable t' := by
  obtain ⟨_, ht, hs, hr⟩ := h
  obtain ⟨hrev, hle⟩ := Visitor.ask_keeps hask
  rw [hkey, if_neg Bool.false_ne_true, pendingSlot_node program hnode] at hr
  exact ⟨isObject_of_isNode hnode, ht.later hrev hle, hrev ▸ hs, hr.later hle⟩

variable {owner : List Value → Value} {done rest : List Value}

/-- An item that is kept. -/
theorem keptItem (h : (Stage.items program owner done (v :: rest)).Walkable t) (hnode : v.isNode = true)
    {answer : Except Fault Answer}
    (hask : (visitor category keepComments).ask v (some (owner (done ++ v :: rest))) t = (answer, t')) :
    (Stage.children v).Walkable t' := by
  obtain ⟨_, ht, hs, hr, _⟩ := h
  obtain ⟨hrev, hle⟩ := Visitor.ask_keeps hask
  exact ⟨isObject_of_isNode hnode, ht.later hrev hle, hrev ▸ hs v List.mem_cons_self,
    (Walk.item_ready hnode hr).later hle⟩

/-- The pieces of an item that is replaced. -/
theorem opened (h : (Stage.items true owner done (v :: rest)).Walkable t) {r : Replacement} {kind : Value}
    {ps : List Piece} (hopen : Statement.Opened keepComments v r kind ps t t') :
    (Stage.pieces kind ps).Walkable t' := by
  obtain ⟨_, ht, hs, hr, _⟩ := h
  have hrv := Walk.item_ready (Statement.isNode_of_loads hopen.loads) hr
  obtain ⟨ht', _, hown, hready⟩ := hopen.walkable ht (hs v List.mem_cons_self) hrv
  exact ⟨ht', fun p hp => (hopen.parted.placed p hp).node, fun p hp => (hopen.parted.placed p hp).quiet, hown, hready⟩

/-- The kind of an item that is replaced is up to date. -/
theorem current_opened (h : (Stage.items true owner done (v :: rest)).Walkable t) {r : Replacement} {kind : Value}
    {ps : List Piece} (hopen : Statement.Opened keepComments v r kind ps t t') : t'.current kind = kind := by
  obtain ⟨_, ht, hs, hr, _⟩ := h
  exact (hopen.walkable ht (hs v List.mem_cons_self) (Walk.item_ready (Statement.isNode_of_loads hopen.loads) hr)).2.1

/-- The items that follow. -/
theorem nextItem (h : (Stage.items program owner done (v :: rest)).Walkable t) {outs : List Value} {edited : Bool}
    (hfirst : Relisted category keepComments program [v] outs edited t t₁) :
    (Stage.items program owner (done ++ outs) rest).Walkable t₁ := by
  obtain ⟨howner, ht, hs, hr, hdone⟩ := h
  obtain ⟨ht₁, hs₁, hr₁, hdone₁⟩ := Walk.relisted_rest hfirst ht (List.forall_mem_cons.mp hs).2 hr hdone
  exact ⟨howner, ht₁, hs₁, hr₁, hdone₁⟩

variable {kind : Value} {p : Piece} {others : List Piece}

/-- Pieces are no programs. -/
theorem notProgram {ps : List Piece} (h : (Stage.pieces kind ps).Walkable t) :
    ∀ q ∈ ps, ∀ k, (q.value k).isA .program = false := by
  obtain ⟨_, hnode, _, _, _⟩ := h
  intro q hq k
  obtain ⟨type, htype, hA⟩ := hnode q hq k
  exact isA_unique hA htype

/-- The first piece, with the kind as it is now. -/
theorem firstPiece (h : (Stage.pieces kind (p :: others)).Walkable t) :
    t.current (p.value kind) = p.value (t.current kind) ∧ (Stage.children (p.value (t.current kind))).Walkable t := by
  have hA := h.notProgram p List.mem_cons_self (t.current kind)
  obtain ⟨ht, _, _, hown, hr⟩ := h
  rw [List.flatMap_cons, List.map_cons, marksItems_cons] at hr
  obtain ⟨hcurrent, hsv, _, hrValue⟩ := Walk.piece_ready ht hA (hown p List.mem_cons_self) hr
  exact ⟨hcurrent, rfl, ht, hsv, hrValue⟩

/-- The pieces that follow, and what the first one did to their kind. -/
theorem nextPiece (h : (Stage.pieces kind (p :: others)).Walkable t)
    (hfirst : Rebuilt category keepComments (p.value (t.current kind)) out t t₁) :
    (Stage.pieces kind others).Walkable t₁ ∧ KindAfter keepComments p (t.current kind) (t₁.current kind) t t₁ := by
  have hA := h.notProgram p List.mem_cons_self (t.current kind)
  obtain ⟨ht, hnode, hquiet, hown, hr⟩ := h
  rw [List.flatMap_cons, List.map_cons, marksItems_cons] at hr
  obtain ⟨hkind, ht₁, hown₁, hr₁⟩ := Walk.pieces_rest ht hA hown hr hfirst
  exact ⟨⟨ht₁, (List.forall_mem_cons.mp hnode).2, (List.forall_mem_cons.mp hquiet).2, hown₁, hr₁⟩, hkind⟩

end Stage.Walkable

/-! ## The rules and the walk -/

namespace Passes

/-- What the pass walks through can be walked through. -/
theorem walkable {w : Walked Memory stage.task.Result} (h : Passes category keepComments n stage t qs w) :
    stage.Walkable t := by
  cases h <;> assumption

/-- **The rules of the pass are rules of the walk.** -/
theorem runs {w : Walked Memory stage.task.Result} (h : Passes category keepComments n stage t qs w) :
    Walk.Runs (visitor category keepComments) n stage.task t qs w := by
  induction h with
  | exhausted _ => exact .exhausted
  | object _ _ hedited ih =>
    have h := Walk.Runs.object ih
    rw [hedited, if_neg Bool.false_ne_true] at h
    exact h
  | noFields _ => exact .noFields
  | fieldStop _ _ hfault ih => exact .fieldStop ih hfault
  | field _ _ hfault _ ih ih' => exact .field ih hfault ih'
  | metadata _ hkey => exact .metadata hkey
  | slotList hw hkey _ ih =>
    obtain ⟨_, _, hs, _⟩ := hw
    exact .slotList hkey hs.refresh ih
  | slotOther hw hkey hlist hnode =>
    obtain ⟨_, _, hs, _⟩ := hw
    exact .slotOther hkey hs.refresh hlist hnode
  | slotFault hw hkey hnode hask =>
    obtain ⟨_, _, hs, _⟩ := hw
    exact .slotFault hkey hs.refresh hnode hask
  | slotKeep hw hkey hnode hask _ ih =>
    obtain ⟨_, _, hs, _⟩ := hw
    exact .slotKeep hkey hs.refresh hnode hask ih
  | slotSplice hw hkey hnode hask =>
    obtain ⟨_, _, hs, _⟩ := hw
    exact .slotSplice hkey hs.refresh hnode hask
  | noItems _ => exact .noItems
  | itemOther _ hnode _ ih => exact .itemOther hnode ih
  | itemFault hw hnode hask =>
    obtain ⟨_, _, hs, _, _⟩ := hw
    exact .itemFault hnode (hs _ List.mem_cons_self).refresh hask
  | itemKeepStop hw hnode hask _ hfault ih =>
    obtain ⟨_, _, hs, _, _⟩ := hw
    exact .itemKeepStop hnode (hs _ List.mem_cons_self).refresh hask ih hfault
  | itemKeep hw hnode hask _ hfault _ ih ih' =>
    obtain ⟨_, _, hs, _, _⟩ := hw
    exact .itemKeep hnode (hs _ List.mem_cons_self).refresh hask ih hfault ih'
  | itemSpliceStop hw hask hopen _ hfault ih =>
    obtain ⟨_, _, hs, hr, hdone⟩ := hw
    exact .itemSpliceStop (Statement.isNode_of_loads hopen.loads) (hs _ List.mem_cons_self).refresh hask
      (Walk.splice_found _ hopen.loads hr hdone) ih hfault
  | itemSplice hw hask hopen _ hfault _ ih ih' =>
    obtain ⟨_, _, hs, hr, hdone⟩ := hw
    exact .itemSplice (Statement.isNode_of_loads hopen.loads) (hs _ List.mem_cons_self).refresh hask
      (Walk.splice_found _ hopen.loads hr hdone) ih hfault ih'
  | noPieces _ => exact .noNodes
  | pieceStop hw _ hfault ih => exact .nodeStop hw.firstPiece.1 ih hfault
  | piece hw _ hfault _ ih ih' => exact .node hw.firstPiece.1 ih hfault ih'

end Passes

/-! ## What a pass achieves -/

variable (category keepComments) in
/-- What the pass achieves if no fault stops it. -/
def Stage.Achieved : (stage : Stage) → Trail Memory → Walked Memory stage.task.Result → Prop
  | .children v, t, w => Rebuilt category keepComments v w.value t w.trail
  | .fields program _ _ todo, t, w => Refielded category keepComments program todo w.value t w.trail
  | .slot program _ key v, t, w => Reslotted category keepComments program key v w.value t w.trail
  | .items program _ done todo, t, w => ∃ out, w.value = done ++ out ∧
      Relisted category keepComments program todo out w.edited t w.trail
  | .pieces kind ps, t, w => Repieced category keepComments (t.current kind) ps w.value t w.trail

namespace Stage.Walkable

variable {program : Bool} {owner : List Value → Value} {done rest outs : List Value} {v out : Value}
  {t' t₁ : Trail Memory}

/-- An item that is no node. -/
theorem relisted_other (hw : (Stage.items program owner done (v :: rest)).Walkable t) (hnode : v.isNode = false) :
    Relisted category keepComments program [v] [v] false t t := by
  obtain ⟨_, ht, hs, _, _⟩ := hw
  exact Walk.relisted_other hnode ht (hs v List.mem_cons_self)

/-- An item that is kept, and walked through. -/
theorem relisted_keep (hw : (Stage.items program owner done (v :: rest)).Walkable t) (hnode : v.isNode = true)
    (hask : (visitor category keepComments).ask v (some (owner (done ++ v :: rest))) t = (.ok .keep, t'))
    (h : Rebuilt category keepComments v out t' t₁) : Relisted category keepComments program [v] [out] false t t₁ := by
  obtain ⟨howner, _, _, _, _⟩ := hw
  exact Walk.relisted_keep hnode (howner _) hask h

/-- An item that is replaced by its pieces, which are walked through. -/
theorem relisted_splice (hw : (Stage.items true owner done (v :: rest)).Walkable t) {r : Replacement} {kind : Value}
    {ps : List Piece} (hopen : Statement.Opened keepComments v r kind ps t t')
    (h : Repieced category keepComments (t'.current kind) ps outs t' t₁) :
    Relisted category keepComments true [v] outs true t t₁ := by
  rw [hw.current_opened hopen] at h
  obtain ⟨_, ht, _, hr, _⟩ := hw
  exact Walk.relisted_splice hopen ht (Walk.item_ready (Statement.isNode_of_loads hopen.loads) hr) h

/-- One item, and then the others. -/
theorem achieved_cons {edited : Bool} {later : Walked Memory (List Value)}
    (hw : (Stage.items program owner done (v :: rest)).Walkable t)
    (hfirst : Relisted category keepComments program [v] outs edited t t₁)
    (hlater : (Stage.items program owner (done ++ outs) rest).Achieved category keepComments t₁ later) :
    (Stage.items program owner done (v :: rest)).Achieved category keepComments t
      { later with edited := edited || later.edited } := by
  obtain ⟨_, ht₁, _, _, _⟩ := hw.nextItem hfirst
  obtain ⟨_, _, _, hr, _⟩ := hw
  obtain ⟨out, hvalue, hrest⟩ := hlater
  exact ⟨outs ++ out, by rw [hvalue, List.append_assoc], .cons ht₁ hr hfirst hrest⟩

/-- One piece, and then the others. -/
theorem achieved_piece {kind : Value} {p : Piece} {others : List Piece} {later : Walked Memory (List Value)}
    (hw : (Stage.pieces kind (p :: others)).Walkable t)
    (hfirst : Rebuilt category keepComments (p.value (t.current kind)) out t t₁)
    (hlater : Repieced category keepComments (t₁.current kind) others later.value t₁ later.trail) :
    Repieced category keepComments (t.current kind) (p :: others) (out :: later.value) t later.trail := by
  have hA := hw.notProgram
  have hkind := (hw.nextPiece hfirst).2
  obtain ⟨_, hnode, hquiet, _, hr⟩ := hw
  rw [List.flatMap_cons, List.map_cons, marksItems_cons] at hr
  obtain ⟨type, _, htype⟩ := hnode p List.mem_cons_self (t.current kind)
  exact .cons hA (isNode_of_isA htype) (hquiet p List.mem_cons_self _) hr hfirst hkind hlater

end Stage.Walkable

namespace Passes

/-- **A pass that is not stopped does what `Lift.lifted` says**, to every part of the tree. -/
theorem achieved {w : Walked Memory stage.task.Result} (h : Passes category keepComments n stage t qs w)
    (hf : w.fault = none) : stage.Achieved category keepComments t w := by
  induction h with
  | exhausted _ => cases hf
  | object hw _ _ ih =>
    obtain ⟨_, _, hs, hr⟩ := hw
    exact (ih hf).object hs hr
  | noFields hw =>
    obtain ⟨_, ht, _, _⟩ := hw
    exact .nil ht
  | fieldStop _ _ _ _ => cases hf
  | field hw _ hfault _ ih ih' =>
    have hfirst := ih hfault
    obtain ⟨_, ht₁, _, _⟩ := hw.nextField hfirst
    obtain ⟨_, _, _, hr⟩ := hw
    exact .cons ht₁ hr hfirst (ih' hf)
  | metadata hw hkey =>
    obtain ⟨_, ht, hs, _⟩ := hw
    exact .metadata ht hs hkey
  | slotList hw hkey _ ih =>
    obtain ⟨_, ht, hs, hr⟩ := hw
    obtain ⟨out, hvalue, hout⟩ := ih hf
    rw [hkey, if_neg Bool.false_ne_true] at hr
    have hslot := hout.slot hkey ht hs hr
    rw [← List.nil_append out, ← hvalue] at hslot
    exact hslot
  | slotOther hw hkey hlist hnode =>
    obtain ⟨_, ht, hs, _⟩ := hw
    exact .other ht hs hkey hnode hlist
  | slotFault _ _ _ _ => cases hf
  | slotKeep hw hkey hnode hask _ ih =>
    obtain ⟨howner, _, _, _⟩ := hw
    exact (ih hf).slot hkey hnode (howner _ fun s => rfl) hask
  | slotSplice _ _ _ _ => cases hf
  | noItems hw =>
    obtain ⟨_, ht, _, _, _⟩ := hw
    exact ⟨[], (List.append_nil _).symm, .nil ht⟩
  | itemOther hw hnode _ ih =>
    have h := hw.achieved_cons (hw.relisted_other hnode) (ih hf)
    rwa [Bool.false_or] at h
  | itemFault _ _ _ => cases hf
  | itemKeepStop _ _ _ _ _ _ => cases hf
  | itemKeep hw hnode hask _ hfault _ ih ih' =>
    have h := hw.achieved_cons (hw.relisted_keep hnode hask (ih hfault)) (ih' hf)
    rwa [Bool.false_or] at h
  | itemSpliceStop _ _ _ _ _ _ => cases hf
  | itemSplice hw hask hopen _ hfault _ ih ih' =>
    have h := hw.achieved_cons (hw.relisted_splice hopen (ih hfault)) (ih' hf)
    rwa [Bool.true_or] at h
  | noPieces hw =>
    obtain ⟨ht, _, _, _, _⟩ := hw
    exact Walk.repieced_nil ht
  | pieceStop _ _ _ _ => cases hf
  | piece hw _ hfault _ ih ih' => exact hw.achieved_piece (ih hfault) (ih' hf)

end Passes

/-! ## The walk obeys the rules -/

/-- Only the items of a list are ever replaced. -/
def Stage.Unedited : (stage : Stage) → Walked Memory stage.task.Result → Prop
  | .children _, w => w.edited = false
  | .fields .., w => w.edited = false
  | .slot .., w => w.edited = false
  | .items .., _ => True
  | .pieces .., w => w.edited = false

theorem Passes.unedited {w : Walked Memory stage.task.Result} (h : Passes category keepComments n stage t qs w) :
    stage.Unedited w := by
  induction h with
  | @exhausted stage _ _ =>
    cases stage with
    | items => trivial
    | _ => rfl
  | fieldStop _ _ _ ih => exact ih
  | field _ _ _ _ ih ih' =>
    show (_ || _) = false
    rw [show _ = false from ih, show _ = false from ih']
    rfl
  | slotKeep _ _ _ _ _ ih => exact ih
  | noItems | itemOther | itemFault | itemKeepStop | itemKeep | itemSpliceStop | itemSplice => trivial
  | _ => rfl

section

variable (ih : ∀ {stage t}, stage.Walkable t → ∃ qs w, Passes category keepComments n stage t qs w)
include ih

/-- There is a rule for the value of a field. -/
theorem exists_passes_slot {program : Bool} {owner : Value → Value} {key : String} {v : Value}
    (hw : (Stage.slot program owner key v).Walkable t) :
    ∃ qs w, Passes category keepComments (n + 1) (.slot program owner key v) t qs w := by
  cases hkey : Syntax.metadataKeys.contains key with
  | true => exact ⟨_, _, .metadata hw hkey⟩
  | false =>
    by_cases hlist : ∃ mark xs, v = .list mark xs
    · obtain ⟨mark, xs, rfl⟩ := hlist
      obtain ⟨qs, w, h⟩ := ih (hw.list hkey)
      exact ⟨_, _, .slotList hw hkey h⟩
    · cases hnode : v.isNode with
      | false => exact ⟨_, _, .slotOther hw hkey (fun m xs h => hlist ⟨m, xs, h⟩) hnode⟩
      | true =>
        rcases hask : (visitor category keepComments).ask v (some (owner v)) t with ⟨fault | answer, t'⟩
        · exact ⟨_, _, .slotFault hw hkey hnode hask⟩
        · cases answer with
          | keep =>
            obtain ⟨qs, w, h⟩ := ih (hw.kept hkey hnode hask)
            exact ⟨_, _, .slotKeep hw hkey hnode hask h⟩
          | node x => exact (ask_ne_node _ _ _ _ _ _ _ hask).elim
          | splice r => exact ⟨_, _, .slotSplice hw hkey hnode hask⟩

/-- There is a rule for an item. -/
theorem exists_passes_item {program : Bool} {owner : List Value → Value} {done rest : List Value} {v : Value}
    (hw : (Stage.items program owner done (v :: rest)).Walkable t) :
    ∃ qs w, Passes category keepComments (n + 1) (.items program owner done (v :: rest)) t qs w := by
  cases hnode : v.isNode with
  | false =>
    have hfirst : Relisted category keepComments program [v] [v] false t t := hw.relisted_other hnode
    obtain ⟨qs, w, h⟩ := ih (hw.nextItem hfirst)
    exact ⟨_, _, .itemOther hw hnode h⟩
  | true =>
    rcases hask : (visitor category keepComments).ask v (some (owner (done ++ v :: rest))) t with ⟨fault | answer, t'⟩
    · exact ⟨_, _, .itemFault hw hnode hask⟩
    · cases answer with
      | keep =>
        obtain ⟨qs, w, h⟩ := ih (hw.keptItem hnode hask)
        cases hfault : w.fault with
        | some fault => exact ⟨_, _, .itemKeepStop hw hnode hask h hfault⟩
        | none =>
          obtain ⟨qs', later, h'⟩ := ih (hw.nextItem (hw.relisted_keep hnode hask (h.achieved hfault)))
          exact ⟨_, _, .itemKeep hw hnode hask h hfault h'⟩
      | node x => exact (ask_ne_node _ _ _ _ _ _ _ hask).elim
      | splice request =>
        have hmarks (m : Nat) (hm : m ∈ v.marks) : 0 < m := ((Walk.item_ready hnode hw.2.2.2.1).bounded m hm).1
        obtain ⟨hprogram, r, kind, ps, rfl, hopen⟩ := exists_opened hmarks hask
        obtain rfl : program = true := (hw.1 _).symm.trans hprogram
        obtain ⟨qs, w, h⟩ := ih (hw.opened hopen)
        cases hfault : w.fault with
        | some fault => exact ⟨_, _, .itemSpliceStop hw hask hopen h hfault⟩
        | none =>
          obtain ⟨qs', later, h'⟩ := ih (hw.nextItem (hw.relisted_splice hopen (h.achieved hfault)))
          exact ⟨_, _, .itemSplice hw hask hopen h hfault h'⟩

end

/-- There is a rule for each step. -/
theorem exists_passes (category : Value) (keepComments : Bool) (n : Nat) {stage : Stage} {t : Trail Memory}
    (hw : stage.Walkable t) : ∃ qs w, Passes category keepComments n stage t qs w := by
  induction n generalizing stage t with
  | zero => exact ⟨_, _, .exhausted hw⟩
  | succ n ih =>
    cases stage with
    | children v =>
      cases v with
      | object mark fs =>
        obtain ⟨qs, w, h⟩ := ih hw.object
        exact ⟨_, _, .object hw h h.unedited⟩
      | _ => cases hw.1
    | fields program mark done todo =>
      cases todo with
      | nil => exact ⟨_, _, .noFields hw⟩
      | cons f rest =>
        obtain ⟨key, v⟩ := f
        obtain ⟨qs, here, h⟩ := ih hw.firstField
        cases hfault : here.fault with
        | some fault => exact ⟨_, _, .fieldStop hw h hfault⟩
        | none =>
          obtain ⟨qs', later, h'⟩ := ih (hw.nextField (h.achieved hfault))
          exact ⟨_, _, .field hw h hfault h'⟩
    | slot program owner key v => exact exists_passes_slot ih hw
    | items program owner done todo =>
      cases todo with
      | nil => exact ⟨_, _, .noItems hw⟩
      | cons v rest => exact exists_passes_item ih hw
    | pieces kind ps =>
      cases ps with
      | nil => exact ⟨_, _, .noPieces hw⟩
      | cons p rest =>
        obtain ⟨qs, w, h⟩ := ih hw.firstPiece.2
        cases hfault : w.fault with
        | some fault => exact ⟨_, _, .pieceStop hw h hfault⟩
        | none =>
          obtain ⟨qs', later, h'⟩ := ih (hw.nextPiece (h.achieved hfault)).1
          exact ⟨_, _, .piece hw h hfault h'⟩

/-- **The walk obeys the rules of the pass**, wherever it can. -/
theorem Stage.Walkable.passes (hw : stage.Walkable t) (category : Value) (keepComments : Bool) (n : Nat) :
    ∃ qs, Passes category keepComments n stage t qs (stage.task.run (visitor category keepComments) n t) := by
  obtain ⟨qs, w, h⟩ := exists_passes category keepComments n hw
  exact ⟨qs, h.runs.eq_run ▸ h⟩

/-- An object that the walk went through. -/
theorem Stage.Walkable.rebuilt {v : Value} (hw : (Stage.children v).Walkable t)
    (hf : (Walk.children (visitor category keepComments) n v t).fault = none) :
    Rebuilt category keepComments v (Walk.children (visitor category keepComments) n v t).value t
      (Walk.children (visitor category keepComments) n v t).trail := by
  obtain ⟨qs, h⟩ := hw.passes category keepComments n
  exact h.achieved hf

end Lift

end EsmLift
