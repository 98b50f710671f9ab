import EsmLift.Proofs.Reach
import EsmLift.Proofs.Rules

/-!
# `Proofs.Keeping` — a walk that keeps every node

If the visitor keeps every node that it is asked about, the walk asks about the nodes of `Value.reached` in their order,
each with its owner, and leaves everything as it is. What the visitor remembers on the way is left open: the walk
follows any chain of questions that are answered by keeping the node.

## Contents

* `Visitor.Keeps`: questions one after another, each answered by keeping the node;
* `Walk.Runs.kept`: the walk through an object, by the rules;
* `Walk.children_kept`: the same as an equation.
-/

namespace EsmLift

open Value

variable {σ : Type} {V : Visitor σ}

namespace Visitor

/-- The visitor keeps the given nodes, asked about each of them with its owner, from one trail to another. -/
inductive Keeps (V : Visitor σ) : List (Value × Value) → Trail σ → Trail σ → Prop
  | nil (t : Trail σ) : Keeps V [] t t
  | cons {o v : Value} {nodes : List (Value × Value)} {t t' : Trail σ} {m : σ}
      (first : V.enter v (some o) t.memory = (.ok .keep, m)) (later : Keeps V nodes { t with memory := m } t') :
      Keeps V ((o, v) :: nodes) t t'

/-- A node that is kept changes the memory at most. -/
theorem ask_of_keep {v : Value} {owner : Option Value} {t : Trail σ} {m : σ}
    (h : V.enter v owner t.memory = (.ok .keep, m)) : V.ask v owner t = (.ok .keep, { t with memory := m }) := by
  rw [ask, h]
  rfl

namespace Keeps

variable {t t' : Trail σ}

theorem revisions {nodes : List (Value × Value)} (h : V.Keeps nodes t t') : t'.revisions = t.revisions := by
  induction h with
  | nil => rfl
  | cons _ _ ih => exact ih

/-- Two lists of nodes are kept one after the other. -/
theorem append {nodes nodes' : List (Value × Value)} (h : V.Keeps (nodes ++ nodes') t t') :
    ∃ t₁, V.Keeps nodes t t₁ ∧ V.Keeps nodes' t₁ t' := by
  induction nodes generalizing t with
  | nil => exact ⟨t, .nil t, h⟩
  | cons p rest ih =>
    cases h with
    | cons first later =>
      obtain ⟨t₁, h₁, h₂⟩ := ih later
      exact ⟨t₁, .cons first h₁, h₂⟩

end Keeps
end Visitor

namespace Walk

/-- The questions about nodes with their owners. -/
def asking (nodes : List (Value × Value)) : List Question := nodes.map fun p => (p.2, some p.1)

theorem asking_append (nodes nodes' : List (Value × Value)) :
    asking (nodes ++ nodes') = asking nodes ++ asking nodes' := List.map_append

/-- Without revisions everything is current. -/
theorem current_of_no_revisions {t : Trail σ} (ht : t.revisions = []) (v : Value) : t.current v = v := by
  unfold Trail.current
  rw [ht]
  exact refresh_nil v

-- Two units of fuel for each value, and two for each field, are enough: one to reach it and one to pass it.
mutual
/-- A walk through an object. -/
theorem Runs.kept {t t' : Trail σ} : (v : Value) → (fuel : Nat) → v.isObject = true → t.revisions = [] →
    2 * v.size ≤ fuel → V.Keeps v.reached t t' → Runs V fuel (.children v) t (asking v.reached) ⟨v, false, none, t'⟩
  | .object m fs, fuel, _, ht, hfuel, h => by
    rw [Value.size] at hfuel
    obtain ⟨fuel, rfl⟩ : ∃ n, fuel = n + 1 := ⟨fuel - 1, by omega⟩
    exact .object (Runs.keptFields fs fuel [] rfl ht (by omega) h)
termination_by structural v => v

/-- A walk through the fields `fs` of the object `o`. -/
theorem Runs.keptFields {mark : Nat} {o : Value} {t t' : Trail σ} : (fs : List (String × Value)) → (fuel : Nat) →
    (done : Fields) → o = .object mark (done ++ fs) → t.revisions = [] → 2 * sizeFields fs + 1 ≤ fuel →
    V.Keeps (reachedFields o fs) t t' →
    Runs V fuel (.fields mark done fs) t (asking (reachedFields o fs)) ⟨fs, false, none, t'⟩
  | [], fuel, done, _, _, hfuel, h => by
    obtain ⟨fuel, rfl⟩ : ∃ n, fuel = n + 1 := ⟨fuel - 1, by omega⟩
    cases h
    exact .noFields
  | (key, v) :: rest, fuel, done, ho, ht, hfuel, h => by
    rw [sizeFields] at hfuel
    obtain ⟨fuel, rfl⟩ : ∃ n, fuel = n + 1 := ⟨fuel - 1, by omega⟩
    rw [reachedFields] at h ⊢
    obtain ⟨t₁, hfirst, hlater⟩ := h.append
    have hslot :=
      Runs.keptSlot v fuel key (fun w => .object mark (done ++ (key, w) :: rest)) ho.symm ht (by omega) hfirst
    have ho' : o = .object mark ((done ++ [(key, v)]) ++ rest) := by rw [List.append_assoc]; exact ho
    have hrest := Runs.keptFields rest fuel (done ++ [(key, v)]) ho' (hfirst.revisions.trans ht) (by omega) hlater
    rw [asking_append]
    exact .field hslot rfl hrest
termination_by structural fs => fs

/-- A walk through the value of a field of the object `o`. -/
theorem Runs.keptSlot {o : Value} {t t' : Trail σ} : (v : Value) → (fuel : Nat) → (key : String) →
    (owner : Value → Value) → owner v = o → t.revisions = [] → 2 * v.size + 1 ≤ fuel →
    V.Keeps (if Syntax.metadataKeys.contains key then [] else reachedSlot o v) t t' →
    Runs V fuel (.slot owner key v) t (asking (if Syntax.metadataKeys.contains key then [] else reachedSlot o v))
      ⟨v, false, none, t'⟩
  | .list m xs, fuel, key, owner, ho, ht, hfuel, h => by
    rw [Value.size] at hfuel
    obtain ⟨fuel, rfl⟩ : ∃ n, fuel = n + 1 := ⟨fuel - 1, by omega⟩
    cases hkey : Syntax.metadataKeys.contains key with
    | true =>
      rw [hkey, if_pos rfl] at h
      cases h
      exact .metadata hkey
    | false =>
      rw [hkey, if_neg Bool.false_ne_true, reachedSlot] at h
      rw [if_neg Bool.false_ne_true, reachedSlot]
      have hitems := Runs.keptItems xs fuel [] (fun ys => owner (.list m ys)) ho ht (by omega) h
      exact .slotList hkey (current_of_no_revisions ht _) hitems
  | .object m fs, fuel, key, owner, ho, ht, hfuel, h => by
    rw [Value.size] at hfuel
    obtain ⟨fuel, rfl⟩ : ∃ n, fuel = n + 2 := ⟨fuel - 2, by omega⟩
    cases hkey : Syntax.metadataKeys.contains key with
    | true =>
      rw [hkey, if_pos rfl] at h
      cases h
      exact .metadata hkey
    | false =>
      rw [hkey, if_neg Bool.false_ne_true, reachedSlot] at h
      rw [if_neg Bool.false_ne_true, reachedSlot]
      cases hnode : (Value.object m fs).isNode with
      | false =>
        rw [hnode, if_neg Bool.false_ne_true] at h
        cases h
        exact .slotOther hkey (current_of_no_revisions ht _) (by simp) hnode
      | true =>
        rw [hnode, if_pos rfl] at h
        rw [if_pos rfl]
        cases h with
        | cons first later =>
          subst ho
          have hbelow := Runs.keptFields fs fuel [] rfl (by exact ht) (by omega) later
          exact .slotKeep hkey (current_of_no_revisions ht _) hnode (Visitor.ask_of_keep first) (.object hbelow)
  | .null, fuel, key, owner, _, ht, hfuel, h | .bool _, fuel, key, owner, _, ht, hfuel, h
  | .int _, fuel, key, owner, _, ht, hfuel, h | .double _, fuel, key, owner, _, ht, hfuel, h
  | .text _, fuel, key, owner, _, ht, hfuel, h | .tuple _, fuel, key, owner, _, ht, hfuel, h => by
    obtain ⟨fuel, rfl⟩ : ∃ n, fuel = n + 1 := ⟨fuel - 1, by omega⟩
    rw [reachedSlot_other o rfl (by simp), ite_self] at h ⊢
    cases h
    cases hkey : Syntax.metadataKeys.contains key with
    | true => exact .metadata hkey
    | false => exact .slotOther hkey (current_of_no_revisions ht _) (by simp) rfl
termination_by structural v => v

/-- A walk through the items `xs` of a list in a field of the object `o`. -/
theorem Runs.keptItems {o : Value} {t t' : Trail σ} : (xs : List Value) → (fuel : Nat) → (done : List Value) →
    (owner : List Value → Value) → owner (done ++ xs) = o → t.revisions = [] → 2 * sizeItems xs + 1 ≤ fuel →
    V.Keeps (reachedItems o xs) t t' →
    Runs V fuel (.items owner done xs) t (asking (reachedItems o xs)) ⟨done ++ xs, false, none, t'⟩
  | [], fuel, done, owner, _, _, hfuel, h => by
    obtain ⟨fuel, rfl⟩ : ∃ n, fuel = n + 1 := ⟨fuel - 1, by omega⟩
    cases h
    rw [List.append_nil]
    exact .noItems
  | v :: rest, fuel, done, owner, ho, ht, hfuel, h => by
    rw [sizeItems] at hfuel
    have hpos := size_pos v
    obtain ⟨fuel, rfl⟩ : ∃ n, fuel = n + 1 := ⟨fuel - 1, by omega⟩
    have hdone : done ++ v :: rest = (done ++ [v]) ++ rest := by rw [List.append_assoc, List.singleton_append]
    have ho' : owner ((done ++ [v]) ++ rest) = o := hdone ▸ ho
    rw [reachedItems] at h ⊢
    cases hnode : v.isNode with
    | false =>
      rw [hnode, if_neg Bool.false_ne_true, List.nil_append] at h
      rw [if_neg Bool.false_ne_true, List.nil_append, hdone]
      exact .itemOther hnode (Runs.keptItems rest fuel (done ++ [v]) owner ho' ht (by omega) h)
    | true =>
      rw [hnode, if_pos rfl, List.cons_append] at h
      rw [if_pos rfl, List.cons_append]
      cases h with
      | cons first later =>
        obtain ⟨t₁, hv, hrest⟩ := later.append
        have hbelow := Runs.kept v fuel (isObject_of_isNode hnode) (by exact ht) (by omega) hv
        have hlater := Runs.keptItems rest fuel (done ++ [v]) owner ho' (hv.revisions.trans ht) (by omega) hrest
        rw [← hdone] at hlater
        subst ho
        have hitem := Runs.itemKeep hnode (current_of_no_revisions ht v) (Visitor.ask_of_keep first) hbelow rfl hlater
        rwa [← asking_append] at hitem
termination_by structural xs => xs
end

/-- A walk through an object whose nodes are all kept. -/
theorem children_kept {t t' : Trail σ} (v : Value) (fuel : Nat) (hobject : v.isObject = true) (ht : t.revisions = [])
    (hfuel : 2 * v.size ≤ fuel) (h : V.Keeps v.reached t t') : children V fuel v t = ⟨v, false, none, t'⟩ :=
  (Runs.kept v fuel hobject ht hfuel h).eq_run

end Walk
end EsmLift
