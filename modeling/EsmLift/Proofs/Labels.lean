import EsmLift.Proofs.Gauge
import EsmLift.Proofs.Steps

/-!
# `Proofs.Labels` — where the objects of a tree come from

An object can carry a label: a scalar under a key that no builder writes. The pass does not look at labels, so they
tell which objects of a tree were there before. An object without one was built, and then it has the fields that the
builders give to its type, and perhaps comments.

## Contents

* `Scalar`, `Value.label?`, `Value.labels`: the labels in a value;
* `Syntax.isBuilt`, `Syntax.writtenKeys`: what built nodes look like;
* `Statement.compounds_split`: what is in a piece was built, or was in the statement;
* `Steps.forall_compounds`: what steps preserve of all compounds.
-/

namespace EsmLift

open Value

/-- A value that is no compound. -/
inductive Scalar where
  | null
  | bool (b : Bool)
  | int (i : Int)
  | double (d : Double)
  | text (s : String)
  deriving DecidableEq, Repr

namespace Value

/-- A value as a scalar. -/
def scalar? : Value → Option Scalar
  | null => some .null
  | bool b => some (.bool b)
  | int i => some (.int i)
  | double d => some (.double d)
  | text s => some (.text s)
  | _ => none

/-- The label that an object has under a key. -/
def label? (key : String) (v : Value) : Option Scalar := (v.get? key).bind scalar?

/-- The labels of the objects in a value. -/
def labels (key : String) (v : Value) : List Scalar := v.compounds.filterMap (label? key)

variable (key : String) (l : Scalar)

theorem labels_leaf {v : Value} (h : v.isCompound = false) : v.labels key = [] := by
  rw [labels, compounds_leaf h]
  rfl

theorem count_labels_list (m : Nat) (xs : List Value) :
    ((list m xs).labels key).count l = (xs.map fun x => (x.labels key).count l).sum := by
  rw [labels, compounds, List.filterMap_cons_none rfl, compoundsItems_eq, List.filterMap_flatMap, List.count_flatMap]
  rfl

theorem count_labels_tuple (xs : List Value) :
    ((tuple xs).labels key).count l = (xs.map fun x => (x.labels key).count l).sum := by
  rw [labels, compounds, List.filterMap_cons_none rfl, compoundsItems_eq, List.filterMap_flatMap, List.count_flatMap]
  rfl

theorem count_labels_object (m : Nat) (fs : Fields) :
    ((object m fs).labels key).count l
      = (if (object m fs).label? key = some l then 1 else 0) + (fs.map fun f => (f.2.labels key).count l).sum := by
  have hfields : ((compoundsFields fs).filterMap (label? key)).count l
      = (fs.map fun f => (f.2.labels key).count l).sum := by
    rw [compoundsFields_eq, List.filterMap_flatMap, List.count_flatMap]
    rfl
  rw [labels, compounds, List.filterMap_cons]
  cases hl : label? key (object m fs) with
  | none => simp [hfields]
  | some l' =>
    rw [List.count_cons, hfields, Nat.add_comm]
    simp only [Option.some.injEq, beq_iff_eq]

theorem label?_erase (v : Value) : v.erase.label? key = v.label? key := by
  rw [label?, label?, get?_erase]
  cases v.get? key with
  | none => rfl
  | some w => cases w <;> rfl

theorem labels_erase (v : Value) : v.erase.labels key = v.labels key := by
  rw [labels, labels, compounds_erase, List.filterMap_map]
  exact congrArg (List.filterMap · v.compounds) (funext fun c => label?_erase key c)

/-- The items of a value have its labels, at most. -/
theorem count_labels_items {v : Value} {xs : List Value} (h : v.items = .ok xs) :
    (xs.map fun x => (x.labels key).count l).sum ≤ (v.labels key).count l := by
  -- characters and keys have none
  have htexts {α : Type} (g : α → String) (ys : List α) :
      ((ys.map fun y => text (g y)).map fun x => (x.labels key).count l).sum = 0 := by
    have hnone : ((fun x => (labels key x).count l) ∘ fun y => text (g y)) = fun _ => 0 := funext fun _ => rfl
    rw [List.map_map, hnone, List.map_const', List.sum_replicate_nat, Nat.mul_zero]
  cases v with
  | list m ys =>
    cases h
    rw [count_labels_list]
  | tuple ys =>
    cases h
    rw [count_labels_tuple]
  | text s =>
    cases h
    rw [htexts]
    exact Nat.zero_le _
  | object m fs =>
    cases h
    rw [htexts]
    exact Nat.zero_le _
  | _ => cases h

end Value

/-! ## Built nodes -/

namespace Syntax

/-- The fields that the builders give to nodes of the four types that are built. -/
def shapes : List (NodeType × List String) :=
  [(.importDeclaration, ["type", "specifiers", "source"]), (.importDefaultSpecifier, ["type", "local"]),
    (.importSpecifier, ["type", "local", "imported"]), (.variableDeclaration, ["type", "kind", "declarations"])]

/-- The keys that the builders write, and those under which comments are copied. -/
def writtenKeys : List String := (shapes.flatMap fun s => s.2) ++ commentKeys

/-- The keys of an object that are not for comments. -/
def plainKeys (fs : Fields) : List String := fs.keys.filter fun k => !commentKeys.contains k

/-- Whether a value looks like a built node: it has the fields of its shape, comments apart. -/
def isBuilt : Value → Bool
  | .object m fs => shapes.any fun s => (Value.object m fs).isA s.1 && plainKeys fs == s.2
  | _ => false

theorem keys_put (fs : Fields) (key : String) (v : Value) :
    (Fields.put fs key v).keys = fs.keys ∨ (Fields.put fs key v).keys = fs.keys ++ [key] := by
  induction fs with
  | nil => exact .inr rfl
  | cons f rest ih =>
    obtain ⟨k, w⟩ := f
    rw [Fields.put]
    by_cases h : k = key
    · rw [if_pos h]
      exact .inl rfl
    · rw [if_neg h]
      exact ih.imp (congrArg (k :: ·)) (congrArg (k :: ·))

theorem plainKeys_put (fs : Fields) {key : String} (v : Value) (hk : commentKeys.contains key = true) :
    plainKeys (Fields.put fs key v) = plainKeys fs := by
  unfold plainKeys
  rcases keys_put fs key v with h | h
  · rw [h]
  · rw [h, List.filter_append, List.filter_cons_of_neg (by rw [hk]; exact Bool.false_ne_true), List.filter_nil,
      List.append_nil]

/-- Objects with the same keys and the same type are built alike. -/
theorem isBuilt_congr {m n : Nat} {fs gs : Fields} (hkeys : plainKeys gs = plainKeys fs)
    (hA : ∀ t, (Value.object n gs).isA t = (Value.object m fs).isA t) :
    isBuilt (.object n gs) = isBuilt (.object m fs) := by
  rw [isBuilt, isBuilt, hkeys]
  exact congrArg (List.any shapes) (funext fun s => by rw [hA])

theorem isBuilt_put {m : Nat} {fs : Fields} {key : String} (v : Value) (hk : commentKeys.contains key = true) :
    isBuilt (.object m (Fields.put fs key v)) = isBuilt (.object m fs) := by
  refine isBuilt_congr (plainKeys_put fs v hk) fun t => ?_
  have hne : "type" ≠ key := by
    rintro rfl
    exact absurd hk (by decide)
  exact isA_congr (v := .object m (Fields.put fs key v)) (w := .object m fs) (Fields.lookup_put_ne fs v hne) t

theorem isBuilt_erase (v : Value) : isBuilt v.erase = isBuilt v := by
  cases v with
  | object m fs =>
    have hA := regular_erase.isA (.object m fs)
    rw [erase_object] at hA ⊢
    refine isBuilt_congr ?_ hA
    rw [plainKeys, plainKeys, Fields.keys, Fields.keys, List.map_map]
    rfl
  | list m xs => rw [erase_list]; rfl
  | tuple xs => rw [erase_tuple]; rfl
  | _ => rfl

/-- A built node is a node, but no program. -/
theorem isA_of_isBuilt {v : Value} (h : isBuilt v = true) : ∃ t : NodeType, t ≠ .program ∧ v.isA t = true := by
  cases v with
  | object m fs =>
    obtain ⟨s, hs, h⟩ := List.any_eq_true.mp h
    have hnone : ∀ s ∈ shapes, s.1 ≠ .program := by decide
    exact ⟨s.1, hnone s hs, (Bool.and_eq_true_iff.mp h).1⟩
  | _ => cases h

/-- A built node has no label. -/
theorem label?_of_isBuilt {key : String} {v : Value} (hkey : key ∉ writtenKeys) (h : isBuilt v = true) :
    v.label? key = none := by
  cases v with
  | object m fs =>
    obtain ⟨s, hs, h⟩ := List.any_eq_true.mp h
    have hkeys : plainKeys fs = s.2 := by
      rw [Bool.and_eq_true, beq_iff_eq] at h
      exact h.2
    have hnone : fs.lookup key = none := by
      cases hl : fs.lookup key with
      | none => rfl
      | some w =>
        have hmem : key ∈ Fields.keys fs := List.mem_map.mpr ⟨_, Fields.mem_of_lookup hl, rfl⟩
        refine absurd ?_ hkey
        cases hc : commentKeys.contains key with
        | true => exact List.mem_append_right _ (List.contains_iff_mem.mp hc)
        | false =>
          have hplain : key ∈ plainKeys fs := List.mem_filter.mpr ⟨hmem, by rw [hc]; rfl⟩
          exact List.mem_append_left _ (List.mem_flatMap.mpr ⟨s, hs, hkeys ▸ hplain⟩)
    show (fs.lookup key).bind scalar? = none
    rw [hnone]
    rfl
  | _ => cases h

theorem IsSpecifier.isBuilt {localName imported s : Value} (h : IsSpecifier localName imported s) :
    isBuilt s = true := by
  rcases h with rfl | rfl <;> rfl

end Syntax

/-! ## What is in a piece -/

/-- A compound that is new: a list, or a built node. -/
def Value.isNew : Value → Bool
  | .list .. => true
  | v => Syntax.isBuilt v

theorem Value.isNew_of_isBuilt {v : Value} (h : Syntax.isBuilt v = true) : v.isNew = true := by
  cases v with
  | object m fs => exact h
  | _ => cases h

/-- What is in the statement of a declarator is new, or was in the declarator or in the kind. -/
theorem Require.compounds_statement {kind d n : Value} (h : statement kind d = .ok n) :
    Syntax.isBuilt n = true ∧
      ∀ c ∈ n.compounds, c.isNew = true ∨ c ∈ kind.compounds ∨ c ∈ d.compounds := by
  rw [statement_eq] at h
  cases hl : load? d with
  | none =>
    rw [hl] at h
    cases h
    refine ⟨rfl, fun c hc => ?_⟩
    rcases mem_compounds_object.mp hc with rfl | ⟨f, hf, hc⟩
    · exact .inl rfl
    · have hf' : f = ("type", NodeType.variableDeclaration.value) ∨ f = ("kind", kind) ∨
          f = ("declarations", .newList [d]) := by simpa using hf
      rcases hf' with rfl | rfl | rfl
      · exact absurd hc List.not_mem_nil
      · exact .inr (.inl hc)
      · rcases mem_compounds_list.mp hc with rfl | ⟨x, hx, hc⟩
        · exact .inl rfl
        · rw [List.mem_singleton.mp hx] at hc
          exact .inr (.inr hc)
  | some l =>
    rw [hl] at h
    obtain ⟨ss, source, rfl, hsource, hss, _⟩ := Load.toImport_ok h
    have hwithin := within_of_load hl
    refine ⟨rfl, fun c hc => ?_⟩
    rcases mem_compounds_object.mp hc with rfl | ⟨f, hf, hc⟩
    · exact .inl rfl
    · have hf' : f = ("type", NodeType.importDeclaration.value) ∨ f = ("specifiers", .newList ss) ∨
          f = ("source", source) := by simpa using hf
      rcases hf' with rfl | rfl | rfl
      · exact absurd hc List.not_mem_nil
      · rcases mem_compounds_list.mp hc with rfl | ⟨s, hs, hc⟩
        · exact .inl rfl
        · obtain ⟨a, ha, b, hb, hspec⟩ := hss s hs
          rcases hspec.compounds hc with rfl | hc | hc
          · exact .inl (isNew_of_isBuilt hspec.isBuilt)
          · exact .inr (.inr ((hwithin a ha).compounds c hc))
          · exact .inr (.inr ((hwithin b hb).compounds c hc))
      · exact .inr (.inr ((hwithin source hsource).compounds c hc))

namespace Syntax

/-- A node that was built from parts of `e`. -/
structure BuiltFrom (e n : Value) : Prop where
  built : isBuilt n = true
  compounds : ∀ c ∈ n.compounds, c.isNew = true ∨ c ∈ e.compounds

/-- Comments that are copied were in the statement. -/
theorem BuiltFrom.copyKeys {e n t : Value} (h : BuiltFrom e n) (keys : List String)
    (hkeys : ∀ key ∈ keys, commentKeys.contains key = true) (hcopy : copyKeys e n keys = (t, none)) :
    BuiltFrom e t := by
  induction keys generalizing n with
  | nil =>
    cases hcopy
    exact h
  | cons key rest ih =>
    obtain ⟨hkey, hrest⟩ := List.forall_mem_cons.mp hkeys
    rw [Syntax.copyKeys] at hcopy
    cases n with
    | object m fs =>
      cases hc : copyKey e (.object m fs) key with
      | error fault => rw [hc] at hcopy; cases hcopy
      | ok t' =>
        rw [hc] at hcopy
        refine ih ?_ hrest hcopy
        rcases copyKey_ok hc with rfl | ⟨copied, own, hcopied, hown, rfl⟩
        · exact h
        · have hbuilt := (isBuilt_put (.list 0 (copied ++ own)) hkey).trans h.built
          have hfields (c : Value) (hc : c ∈ compoundsFields fs) : c.isNew = true ∨ c ∈ e.compounds :=
            h.compounds c (List.mem_cons_of_mem _ hc)
          refine ⟨hbuilt, fun c hc => ?_⟩
          rcases List.mem_cons.mp hc with rfl | hc
          · exact .inl (isNew_of_isBuilt hbuilt)
          · rcases Fields.compounds_put hc with hc | hc
            · exact hfields c hc
            · rcases mem_compounds_list.mp hc with rfl | ⟨x, hx, hc⟩
              · exact .inl rfl
              · rcases List.mem_append.mp hx with hx | hx
                · exact .inr (compounds_at ((Value.items_ok hcopied).1 x hx c hc))
                · have hc := (Fields.items_of_lookup hown).1 x hx c hc
                  rcases hl : fs.lookup key with _ | w
                  · rw [hl] at hc; exact absurd hc List.not_mem_nil
                  · rw [hl] at hc
                    refine hfields c ?_
                    rw [compoundsFields_eq]
                    exact List.mem_flatMap.mpr ⟨_, Fields.mem_of_lookup hl, hc⟩
    | _ => cases h.built

end Syntax

/-- **What is in a piece is new, or was in the statement.** -/
theorem Statement.compounds_split {keepComments : Bool} {e n : Value} {r : Replacement}
    (h : split keepComments e = .ok r) (hn : n ∈ r.nodes) : Syntax.BuiltFrom e n := by
  obtain ⟨kind, declarations, ds, hkind, hdecl, hds, hbecomes⟩ := split_becomes h
  obtain ⟨d, hd, s, hs, hcopied⟩ := exists_left_of_forall₂ hbecomes hn
  obtain ⟨hbuilt, hcompounds⟩ := Require.compounds_statement hs
  have hfrom : Syntax.BuiltFrom e s := by
    refine ⟨hbuilt, fun c hc => (hcompounds c hc).imp id fun hc => ?_⟩
    rcases hc with hc | hc
    · exact compounds_at (at_eq hkind ▸ hc)
    · exact compounds_at (at_eq hdecl ▸ (Value.items_ok hds).1 d hd c hc)
  rcases hcopied with rfl | hcopied
  · exact hfrom
  · exact hfrom.copyKeys Syntax.commentKeys (by decide) hcopied

/-! ## What is in a tree after some steps -/

namespace Lift

variable {keepComments : Bool} {place : Place} {v w : Value} {key : String}

namespace Step

theorem scalar? (h : Step keepComments place v w) : v.scalar? = none ∧ w.scalar? = none := by
  cases h <;> exact ⟨rfl, rfl⟩

/-- A step in a field changes neither the label of the object nor what it looks like. -/
theorem label?_field (h : Step keepComments place v w) (m : Nat) (fs gs : Fields) (k : String) :
    (Value.object m (fs ++ (k, w) :: gs)).label? key = (Value.object m (fs ++ (k, v) :: gs)).label? key := by
  show (List.lookup key _).bind _ = (List.lookup key _).bind _
  rw [Fields.lookup_insert, Fields.lookup_insert]
  cases fs.lookup key with
  | some u => rfl
  | none =>
    rw [Option.none_or, Option.none_or]
    split
    · exact h.scalar?.2.trans h.scalar?.1.symm
    · rfl

theorem isBuilt_field (h : Step keepComments place v w) (m : Nat) (fs gs : Fields) (k : String) :
    Syntax.isBuilt (.object m (fs ++ (k, w) :: gs)) = Syntax.isBuilt (.object m (fs ++ (k, v) :: gs)) := by
  refine Syntax.isBuilt_congr ?_ fun t => Walk.isA_update h.isText t
  rw [Syntax.plainKeys, Syntax.plainKeys, Fields.keys, Fields.keys, List.map_append, List.map_append, List.map_cons,
    List.map_cons]

/-- A property of compounds is preserved by a step, if new compounds have it, and objects keep it when a step is made
in one of their fields. -/
theorem forall_compounds {P : Value → Prop} (hnew : ∀ c, c.isNew = true → P c)
    (hfield : ∀ {place : Place} {v w : Value} (m : Nat) (fs gs : Fields) (k : String),
      Step keepComments place v w → P (.object m (fs ++ (k, v) :: gs)) → P (.object m (fs ++ (k, w) :: gs)))
    (h : Step keepComments place v w) (hv : ∀ c ∈ v.compounds, P c) : ∀ c ∈ w.compounds, P c := by
  have hitems {m : Nat} {xs : List Value} (h : ∀ c ∈ (Value.list m xs).compounds, P c) (x : Value) (hx : x ∈ xs) :
      ∀ c ∈ x.compounds, P c := fun c hc => h c (mem_compounds_list.mpr (.inr ⟨x, hx, hc⟩))
  induction h with
  | @splice m xs ys e r _ hsplit =>
    intro c hc
    have hold := hitems hv
    rcases mem_compounds_list.mp hc with rfl | ⟨x, hx, hc⟩
    · exact hnew _ rfl
    · rcases List.mem_append.mp hx with hx | hx
      · exact hold x (List.mem_append_left _ hx) c hc
      · rcases List.mem_append.mp hx with hx | hx
        · rcases (Statement.compounds_split hsplit hx).compounds c hc with hc | hc
          · exact hnew c hc
          · exact hold e (List.mem_append_right _ List.mem_cons_self) c hc
        · exact hold x (List.mem_append_right _ (List.mem_cons_of_mem _ hx)) c hc
  | @item program m xs ys x y _ _ ih =>
    intro c hc
    have hold := hitems hv
    rcases mem_compounds_list.mp hc with rfl | ⟨z, hz, hcz⟩
    · exact hnew _ rfl
    · rcases List.mem_append.mp hz with hz | hz
      · exact hold z (List.mem_append_left _ hz) c hcz
      · rcases List.mem_cons.mp hz with rfl | hz
        · exact ih (hold x (List.mem_append_right _ List.mem_cons_self)) c hcz
        · exact hold z (List.mem_append_right _ (List.mem_cons_of_mem _ hz)) c hcz
  | @field place m fs gs k v w _ _ hstep ih =>
    intro c hc
    have hold (f : String × Value) (hf : f ∈ fs ++ (k, v) :: gs) (c : Value) (hc : c ∈ f.2.compounds) : P c :=
      hv c (mem_compounds_object.mpr (.inr ⟨f, hf, hc⟩))
    rcases mem_compounds_object.mp hc with rfl | ⟨f, hf, hc⟩
    · exact hfield m fs gs k hstep (hv _ List.mem_cons_self)
    · rcases List.mem_append.mp hf with hf | hf
      · exact hold f (List.mem_append_left _ hf) c hc
      · rcases List.mem_cons.mp hf with rfl | hf
        · exact ih (hold (k, v) (List.mem_append_right _ List.mem_cons_self)) c hc
        · exact hold f (List.mem_append_right _ (List.mem_cons_of_mem _ hf)) c hc

end Step

namespace Steps

/-- The same for any number of steps. -/
theorem forall_compounds {P : Value → Prop} (hnew : ∀ c, c.isNew = true → P c)
    (hfield : ∀ {place : Place} {v w : Value} (m : Nat) (fs gs : Fields) (k : String),
      Step keepComments place v w → P (.object m (fs ++ (k, v) :: gs)) → P (.object m (fs ++ (k, w) :: gs)))
    (h : Steps keepComments place v w) (hv : ∀ c ∈ v.compounds, P c) : ∀ c ∈ w.compounds, P c := by
  induction h with
  | refl => exact hv
  | tail _ hstep ih => exact hstep.forall_compounds hnew hfield ih

/-- No tuples come up. -/
theorem isTuple (h : Steps keepComments place v w) (hv : ∀ c ∈ v.compounds, c.isTuple = false) :
    ∀ c ∈ w.compounds, c.isTuple = false :=
  h.forall_compounds (P := fun c => c.isTuple = false) (fun c hc => by cases c <;> first | rfl | cases hc)
    (fun _ _ _ _ _ _ => rfl) hv

/-- **An object that was not there before is a built node.** Every other one has a label that was there. -/
theorem accounted {ls : List Scalar} (h : Steps keepComments place v w)
    (hv : ∀ c ∈ v.compounds, c.isObject = true → ∃ l ∈ ls, c.label? key = some l) :
    ∀ c ∈ w.compounds, c.isObject = true → Syntax.isBuilt c = true ∨ ∃ l ∈ ls, c.label? key = some l := by
  refine h.forall_compounds (P := fun c => c.isObject = true → Syntax.isBuilt c = true ∨
    ∃ l ∈ ls, c.label? key = some l) (fun c hc hobj => ?_) (fun m fs gs k hstep hc hobj => ?_)
    fun c hc hobj => .inr (hv c hc hobj)
  · cases c with
    | object m fs => exact .inl hc
    | _ => cases hobj
  · rw [hstep.isBuilt_field, hstep.label?_field]
    exact hc rfl

end Steps

end Lift

end EsmLift
