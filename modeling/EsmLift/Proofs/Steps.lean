import EsmLift.Proofs.Traversal
import Mathlib.Logic.Relation

/-!
# `Proofs.Steps` — one statement replaced after another

What a pass does to a tree, seen from outside, is a run of steps. In one step a candidate in a list of a program gives
way to its pieces, and the rest of the tree stays. The step can be anywhere the walk gets to: below nodes, in fields
that are no metadata. This is a relation on trees without marks; how far a run goes, and in what order, is left open,
so it describes a pass that was stopped as well as one that returned (`Proofs.Progress`).

## Contents

* `Place`, `Lift.Step`, `Lift.Steps`;
* `Step.isA`, `Step.isNode`, `Step.skeleton`: what a step does not change;
* `Steps.field`, `Steps.fields`, `Steps.item`, `Steps.items`, `Steps.around`: steps below an object or in a list;
* `Steps.exists_get?`: steps below an object are steps in its fields.
-/

namespace EsmLift

open Value

/-- The value of a key, where one field is singled out. -/
theorem Fields.lookup_insert (fs gs : Fields) (key k : String) (u : Value) :
    (fs ++ (key, u) :: gs : Fields).lookup k = (fs.lookup k).or (if k == key then some u else gs.lookup k) := by
  rw [List.lookup_append, List.lookup_cons]
  cases k == key <;> rfl

/-- Where a value stands: at the root, or in a field of an object that is a program or is not, perhaps in a list. -/
inductive Place where
  | root
  | under (program : Bool)

namespace Lift

variable {keepComments : Bool}

/-- One candidate of a program gives way to its pieces. -/
inductive Step (keepComments : Bool) : Place → Value → Value → Prop
  /-- The candidate stands in this list. -/
  | splice {m : Nat} {xs ys : List Value} {e : Value} {r : Replacement} (hload : Statement.loads e = true)
      (hsplit : Statement.split keepComments e = .ok r) :
      Step keepComments (.under true) (.list m (xs ++ e :: ys)) (.list m (xs ++ (r.nodes ++ ys)))
  /-- The candidate stands below an item of this list. -/
  | item {program : Bool} {m : Nat} {xs ys : List Value} {x y : Value} (hx : x.isNode = true)
      (h : Step keepComments (.under program) x y) :
      Step keepComments (.under program) (.list m (xs ++ x :: ys)) (.list m (xs ++ y :: ys))
  /-- The candidate stands in or below a field of this object. -/
  | field {place : Place} {m : Nat} {fs gs : Fields} {key : String} {v w : Value}
      (hplace : place = .root ∨ (Value.object m (fs ++ (key, v) :: gs)).isNode = true)
      (hkey : Syntax.metadataKeys.contains key = false)
      (h : Step keepComments (.under ((Value.object m (fs ++ (key, v) :: gs)).isA .program)) v w) :
      Step keepComments place (.object m (fs ++ (key, v) :: gs)) (.object m (fs ++ (key, w) :: gs))

/-- Any number of candidates give way to their pieces, one after another. -/
abbrev Steps (keepComments : Bool) (place : Place) : Value → Value → Prop :=
  Relation.ReflTransGen (Step keepComments place)

/-! ## What a step does not change -/

namespace Step

variable {place : Place} {v w : Value}

theorem isText (h : Step keepComments place v w) (s : String) : w.isText s = v.isText s := by
  cases h <;> rfl

theorem isA (h : Step keepComments place v w) (t : NodeType) : w.isA t = v.isA t := by
  cases h with
  | splice => rfl
  | item => rfl
  | field _ _ h => exact Walk.isA_update h.isText t

theorem isNode (h : Step keepComments place v w) : w.isNode = v.isNode := by
  cases h with
  | splice => rfl
  | item => rfl
  | @field _ m fs gs key v w _ _ h =>
    show (List.lookup _ _).isSome = (List.lookup _ _).isSome
    rw [Fields.lookup_insert, Fields.lookup_insert, Option.isSome_or, Option.isSome_or]
    split <;> rfl

/-- Steps keep skeletons, except in the lists of programs. -/
theorem skeleton (h : Step keepComments place v w) (hplace : place = .under false ∨ v.isObject = true) :
    w.skeleton = v.skeleton := by
  induction h with
  | splice => rcases hplace with hplace | hplace <;> cases hplace
  | @item program m xs ys x y hx _ ih =>
    simp only [Value.skeleton, skeletonItems_eq_map, List.map_append, List.map_cons]
    rw [ih (.inr (isObject_of_isNode hx))]
  | @field place m fs gs key v w _ _ h ih =>
    have hA : (Value.object m (fs ++ (key, w) :: gs)).isA .program
        = (Value.object m (fs ++ (key, v) :: gs)).isA .program :=
      Walk.isA_update h.isText .program
    rw [Value.skeleton, Value.skeleton, hA]
    split
    · rfl
    · rename_i hp
      have hsame := ih (.inl (by rw [Bool.eq_false_iff.mpr hp]))
      have hfields (fs : Fields) : skeletonFields (fs ++ (key, w) :: gs) = skeletonFields (fs ++ (key, v) :: gs) := by
        induction fs with
        | nil => rw [List.nil_append, List.nil_append, skeletonFields, skeletonFields, hsame]
        | cons f rest ihf =>
          obtain ⟨k, u⟩ := f
          rw [List.cons_append, List.cons_append, skeletonFields, skeletonFields, ihf]
      rw [hfields]

/-- A step in a list is a step in a longer list. -/
theorem around {m : Nat} {xs : List Value} (h : Step keepComments place (.list m xs) w) (as bs : List Value) :
    ∃ ys, w = .list m ys ∧
      Step keepComments place (.list m (as ++ (xs ++ bs))) (.list m (as ++ (ys ++ bs))) := by
  cases h with
  | @splice _ xs ys e r hload hsplit =>
    refine ⟨_, rfl, ?_⟩
    have hstep := @Step.splice keepComments m (as ++ xs) (ys ++ bs) e r hload hsplit
    simpa only [List.append_assoc, List.cons_append] using hstep
  | @item program _ xs ys x y hx h =>
    refine ⟨_, rfl, ?_⟩
    have hstep := @Step.item keepComments program m (as ++ xs) (ys ++ bs) x y hx h
    simpa only [List.append_assoc, List.cons_append] using hstep

/-- A step below an object that is no program is a step in one of its fields. -/
theorem exists_get? (h : Step keepComments place v w) (hv : v.isA .program = false) {key : String} {u : Value}
    (hu : v.get? key = some u) :
    ∃ u', w.get? key = some u' ∧ (u' = u ∨ Step keepComments (.under false) u u') := by
  cases h with
  | splice => cases hu
  | item => cases hu
  | @field _ m fs gs k x y _ _ h =>
    rw [hv] at h
    rw [Value.get?, Fields.lookup_insert] at hu
    rw [Value.get?, Fields.lookup_insert]
    cases hfs : fs.lookup key with
    | some z =>
      rw [hfs] at hu
      exact ⟨u, hu, .inl rfl⟩
    | none =>
      rw [hfs] at hu
      by_cases hk : (key == k) = true
      · rw [if_pos hk] at hu ⊢
        cases hu
        exact ⟨y, rfl, .inr h⟩
      · rw [if_neg hk] at hu ⊢
        exact ⟨u, hu, .inl rfl⟩

end Step

namespace Steps

variable {place : Place} {v w : Value}

theorem isA (h : Steps keepComments place v w) (t : NodeType) : w.isA t = v.isA t := by
  induction h with
  | refl => rfl
  | tail _ hstep ih => exact (hstep.isA t).trans ih

theorem isNode (h : Steps keepComments place v w) : w.isNode = v.isNode := by
  induction h with
  | refl => rfl
  | tail _ hstep ih => exact hstep.isNode.trans ih

theorem exists_get? (h : Steps keepComments place v w) (hv : v.isA .program = false) {key : String} {u : Value}
    (hu : v.get? key = some u) : ∃ u', w.get? key = some u' ∧ Steps keepComments (.under false) u u' := by
  induction h with
  | refl => exact ⟨u, hu, .refl⟩
  | tail h hstep ih =>
    obtain ⟨u', hu', hsteps⟩ := ih
    obtain ⟨u'', hu'', rfl | hlast⟩ := hstep.exists_get? ((isA h _).trans hv) hu'
    · exact ⟨u'', hu'', hsteps⟩
    · exact ⟨u'', hu'', hsteps.tail hlast⟩

/-! ## Steps below an object -/

/-- Steps in one field. -/
theorem field {m : Nat} {fs gs : Fields} {key : String}
    (hplace : place = .root ∨ (Value.object m (fs ++ (key, v) :: gs)).isNode = true)
    (hkey : Syntax.metadataKeys.contains key = false)
    (h : Steps keepComments (.under ((Value.object m (fs ++ (key, v) :: gs)).isA .program)) v w) :
    Steps keepComments place (.object m (fs ++ (key, v) :: gs)) (.object m (fs ++ (key, w) :: gs)) := by
  induction h with
  | refl => exact .refl
  | @tail u w _ hstep ih =>
    rw [← isA ih] at hstep
    exact ih.tail (.field (hplace.imp_right fun hn => (isNode ih).trans hn) hkey hstep)

/-- Steps in all fields, one field after another. -/
theorem fields {m : Nat} (before after : String × Value → Value) (done todo : Fields)
    (hplace : place = .root ∨ (Value.object m (done ++ todo.map fun f => (f.1, before f))).isNode = true)
    (h : ∀ f ∈ todo, if Syntax.metadataKeys.contains f.1 then before f = after f
      else Steps keepComments
        (.under ((Value.object m (done ++ todo.map fun f => (f.1, before f))).isA .program)) (before f) (after f)) :
    Steps keepComments place (.object m (done ++ todo.map fun f => (f.1, before f)))
      (.object m (done ++ todo.map fun f => (f.1, after f))) := by
  induction todo generalizing done with
  | nil => exact .refl
  | cons f rest ih =>
    obtain ⟨hf, hrest⟩ := List.forall_mem_cons.mp h
    have hfirst : Steps keepComments place (.object m (done ++ (f.1, before f) :: rest.map fun f => (f.1, before f)))
        (.object m (done ++ (f.1, after f) :: rest.map fun f => (f.1, before f))) := by
      by_cases hk : Syntax.metadataKeys.contains f.1 = true
      · rw [if_pos hk] at hf
        rw [hf]
      · rw [if_neg hk] at hf
        exact field hplace (Bool.not_eq_true _ ▸ hk) hf
    have hsplit (gs : Fields) : done ++ (f.1, after f) :: gs = (done ++ [(f.1, after f)]) ++ gs := by simp
    have hlater := ih (done ++ [(f.1, after f)]) (hplace.imp_right fun hn => by rw [← hsplit, isNode hfirst]; exact hn)
      fun g hg => by rw [← hsplit, isA hfirst]; exact hrest g hg
    rw [← hsplit, ← hsplit] at hlater
    exact hfirst.trans hlater

/-! ## Steps in a list -/

/-- Steps in a list are steps in a longer list. -/
theorem around {m : Nat} {xs ys : List Value} (h : Steps keepComments place (.list m xs) (.list m ys))
    (as bs : List Value) : Steps keepComments place (.list m (as ++ (xs ++ bs))) (.list m (as ++ (ys ++ bs))) := by
  have hall (w : Value) (h : Steps keepComments place (.list m xs) w) : ∃ ys, w = .list m ys ∧
      Steps keepComments place (.list m (as ++ (xs ++ bs))) (.list m (as ++ (ys ++ bs))) := by
    induction h with
    | refl => exact ⟨xs, rfl, .refl⟩
    | tail _ hstep ih =>
      obtain ⟨ys, rfl, hsteps⟩ := ih
      obtain ⟨zs, rfl, hlast⟩ := hstep.around as bs
      exact ⟨zs, rfl, hsteps.tail hlast⟩
  obtain ⟨zs, heq, hsteps⟩ := hall _ h
  cases heq
  exact hsteps

/-- Steps below one item. -/
theorem item {program : Bool} {m : Nat} {xs ys : List Value} {x y : Value} (hx : x.isNode = true)
    (h : Steps keepComments (.under program) x y) :
    Steps keepComments (.under program) (.list m (xs ++ x :: ys)) (.list m (xs ++ y :: ys)) := by
  induction h with
  | refl => exact .refl
  | tail h hstep ih => exact ih.tail (.item (isNode h ▸ hx) hstep)

/-- Steps below all items, one item after another. -/
theorem items {program : Bool} {m : Nat} {xs ys : List Value}
    (h : List.Forall₂ (fun x y => x.isNode = true ∧ Steps keepComments (.under program) x y) xs ys) :
    Steps keepComments (.under program) (.list m xs) (.list m ys) := by
  induction h with
  | nil => exact .refl
  | @cons x y xs ys hxy _ ih =>
    have hfirst : Steps keepComments (.under program) (.list m (x :: xs)) (.list m (y :: xs)) :=
      @item keepComments program m [] xs x y hxy.1 hxy.2
    have hrest := ih.around [y] []
    rw [List.append_nil, List.append_nil] at hrest
    exact hfirst.trans hrest

end Steps

end Lift

end EsmLift
