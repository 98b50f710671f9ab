import EsmLift.Proofs.Refinement
import EsmLift.Proofs.Reserve

/-!
# `Proofs.Stripping` — a tree without locations and comments

Locations and comments are metadata: `Value.strip` removes them at every depth. A tree and its stripped twin are
edited in place side by side, but not under the same marks, since what is stripped away used up marks of its own.
So a renaming of marks goes along: `Twin σ n v w` says that `w` is `v` stripped, that its marks are below `n`, and
that `σ` leads from the marks of `w` to those of `v`.

## Contents

* `Value.strip`, `Value.rename`: both are regular, so statements are split alike;
* `Twin`, `TwinFields`, and their inversions;
* `Renaming`, `Twin.refresh`, `twin_stamp`, `Replacement.twin_locate`: the operations of the walk on twins;
* `Statement.twin_split`: twins are split into twins.
-/

namespace EsmLift

namespace Value

mutual
/-- A value without locations and comments, at any depth. -/
def strip : Value → Value
  | list mark items => list mark (stripItems items)
  | tuple items => tuple (stripItems items)
  | object mark fields => object mark (stripFields fields)
  | v => v

/-- The items of a list without locations and comments. -/
def stripItems : List Value → List Value
  | [] => []
  | v :: rest => strip v :: stripItems rest

/-- The fields of an object without locations and comments. -/
def stripFields : List (String × Value) → List (String × Value)
  | [] => []
  | (key, v) :: rest =>
    if Syntax.metadataKeys.contains key then stripFields rest else (key, strip v) :: stripFields rest
end

mutual
/-- A value with other marks. -/
def rename (σ : Nat → Nat) : Value → Value
  | list mark items => list (σ mark) (renameItems σ items)
  | tuple items => tuple (renameItems σ items)
  | object mark fields => object (σ mark) (renameFields σ fields)
  | v => v

/-- The items of a list with other marks. -/
def renameItems (σ : Nat → Nat) : List Value → List Value
  | [] => []
  | v :: rest => rename σ v :: renameItems σ rest

/-- The fields of an object with other marks. -/
def renameFields (σ : Nat → Nat) : List (String × Value) → List (String × Value)
  | [] => []
  | (key, v) :: rest => (key, rename σ v) :: renameFields σ rest
end

theorem stripItems_eq_map (xs : List Value) : stripItems xs = xs.map strip := by
  induction xs with
  | nil => rfl
  | cons x rest ih => rw [stripItems, ih, List.map_cons]

theorem renameItems_eq_map (σ : Nat → Nat) (xs : List Value) : renameItems σ xs = xs.map (rename σ) := by
  induction xs with
  | nil => rfl
  | cons x rest ih => rw [renameItems, ih, List.map_cons]

theorem renameFields_eq_map (σ : Nat → Nat) (fs : Fields) :
    renameFields σ fs = fs.map fun f => (f.1, f.2.rename σ) := by
  induction fs with
  | nil => rfl
  | cons f rest ih => obtain ⟨key, v⟩ := f; rw [renameFields, ih, List.map_cons]

theorem lookup_stripFields (fs : Fields) {key : String} (hk : Syntax.metadataKeys.contains key = false) :
    (stripFields fs).lookup key = (fs.lookup key).map strip := by
  induction fs with
  | nil => rfl
  | cons f rest ih =>
    obtain ⟨k, v⟩ := f
    rw [stripFields]
    by_cases hkk : key = k
    · subst hkk
      rw [if_neg (by rw [hk]; exact Bool.false_ne_true)]
      simp
    · have hne : (key == k) = false := by simpa using hkk
      rw [List.lookup_cons, hne]
      split
      · exact ih
      · rw [List.lookup_cons, hne]; exact ih

/-- No metadata is left. -/
theorem lookup_stripFields_metadata (fs : Fields) {key : String} (hk : Syntax.metadataKeys.contains key = true) :
    (stripFields fs).lookup key = none := by
  induction fs with
  | nil => rfl
  | cons f rest ih =>
    obtain ⟨k, v⟩ := f
    rw [stripFields]
    split
    · exact ih
    · rename_i hk'
      have hne : (key == k) = false := by
        rw [beq_eq_false_iff_ne]
        rintro rfl
        exact hk' hk
      rw [List.lookup_cons, hne]
      exact ih

theorem lookup_renameFields (σ : Nat → Nat) (fs : Fields) (key : String) :
    (renameFields σ fs).lookup key = (fs.lookup key).map (rename σ) := by
  rw [renameFields_eq_map]
  exact Fields.lookup_map (fun _ v => v.rename σ) fs key

end Value

/-- What is built keeps its shape when it is stripped. -/
theorem regular_strip : Regular Value.strip where
  leaf v h := by cases v <;> first | rfl | cases h
  list m xs := ⟨m, by rw [Value.strip, Value.stripItems_eq_map]⟩
  tuple xs := by rw [Value.strip, Value.stripItems_eq_map]
  object m fs := ⟨m, _, by rw [Value.strip], Value.lookup_stripFields fs (by decide),
    fun _ _ hk => Value.lookup_stripFields fs hk⟩
  field m fs := ⟨m, _, by rw [Value.strip], fun _ hk => Value.lookup_stripFields fs hk⟩
  defaultSpecifier _ := rfl
  specifier _ _ := rfl
  declaration ss source := by
    show Value.object 0 [("type", _), ("specifiers", .list 0 (Value.stripItems ss)), ("source", source.strip)] = _
    rw [Value.stripItems_eq_map]
    rfl
  ofVariables kind ds := by
    show Value.object 0 [("type", _), ("kind", kind.strip), ("declarations", .list 0 (Value.stripItems ds))] = _
    rw [Value.stripItems_eq_map]
    rfl

/-- What is built has no marks to rename. -/
theorem regular_rename {σ : Nat → Nat} (h0 : σ 0 = 0) : Regular (Value.rename σ) where
  leaf v h := by cases v <;> first | rfl | cases h
  list m xs := ⟨σ m, by rw [Value.rename, Value.renameItems_eq_map]⟩
  tuple xs := by rw [Value.rename, Value.renameItems_eq_map]
  object m fs := ⟨σ m, _, by rw [Value.rename], Value.lookup_renameFields σ fs "type",
    fun _ key _ => Value.lookup_renameFields σ fs key⟩
  field m fs := ⟨σ m, _, by rw [Value.rename], fun key _ => Value.lookup_renameFields σ fs key⟩
  defaultSpecifier x := by
    show Value.object (σ 0) [("type", _), ("local", x.rename σ)] = _
    rw [h0]
    rfl
  specifier x y := by
    show Value.object (σ 0) [("type", _), ("local", x.rename σ), ("imported", y.rename σ)] = _
    rw [h0]
    rfl
  declaration ss source := by
    show Value.object (σ 0) [("type", _), ("specifiers", .list (σ 0) (Value.renameItems σ ss)),
      ("source", source.rename σ)] = _
    rw [h0, Value.renameItems_eq_map]
    rfl
  ofVariables kind ds := by
    show Value.object (σ 0) [("type", _), ("kind", kind.rename σ),
      ("declarations", .list (σ 0) (Value.renameItems σ ds))] = _
    rw [h0, Value.renameItems_eq_map]
    rfl

namespace Value

/-- Renamed marks are forgotten like others. -/
theorem erase_rename (σ : Nat → Nat) (v : Value) : (v.rename σ).erase = v.erase := by
  induction v using Value.induction with
  | leaf v h => cases v <;> first | rfl | cases h
  | list m xs ih =>
    rw [rename, renameItems_eq_map, erase_list, erase_list, List.map_map]
    exact congrArg _ (List.map_congr_left ih)
  | tuple xs ih =>
    rw [rename, renameItems_eq_map, erase_tuple, erase_tuple, List.map_map]
    exact congrArg _ (List.map_congr_left ih)
  | object m fs ih =>
    rw [rename, renameFields_eq_map, erase_object, erase_object, List.map_map]
    refine congrArg _ (List.map_congr_left fun f hf => ?_)
    show (f.1, (f.2.rename σ).erase) = (f.1, f.2.erase)
    rw [ih f hf]

/-- Renamings that agree on the marks of a value rename it alike. -/
theorem rename_congr {σ τ : Nat → Nat} {v : Value} (h : ∀ m ∈ v.marks, σ m = τ m) : v.rename σ = v.rename τ := by
  induction v using Value.induction with
  | leaf v hv => cases v <;> first | rfl | cases hv
  | list m xs ih =>
    rw [marks_list] at h
    rw [rename, rename, renameItems_eq_map, renameItems_eq_map, h m List.mem_cons_self]
    refine congrArg _ (List.map_congr_left fun x hx => ih x hx fun k hk => h k ?_)
    exact List.mem_cons_of_mem _ (List.mem_flatMap.mpr ⟨x, hx, hk⟩)
  | tuple xs ih =>
    rw [marks_tuple] at h
    rw [rename, rename, renameItems_eq_map, renameItems_eq_map]
    refine congrArg _ (List.map_congr_left fun x hx => ih x hx fun k hk => h k ?_)
    exact List.mem_cons_of_mem _ (List.mem_flatMap.mpr ⟨x, hx, hk⟩)
  | object m fs ih =>
    rw [marks_object] at h
    rw [rename, rename, renameFields_eq_map, renameFields_eq_map, h m List.mem_cons_self]
    refine congrArg _ (List.map_congr_left fun f hf => ?_)
    have heq := ih f hf fun k hk => h k (List.mem_cons_of_mem _ (List.mem_flatMap.mpr ⟨f, hf, hk⟩))
    rw [heq]

end Value

/-! ## Twins -/

/-- `w` is `v` without metadata, under marks below `n` that `σ` leads back to those of `v`. -/
def Twin (σ : Nat → Nat) (n : Nat) (v w : Value) : Prop := v.strip = w.rename σ ∧ ∀ m ∈ w.marks, m < n

/-- Fields and their twins: metadata has none. -/
inductive TwinFields (σ : Nat → Nat) (n : Nat) : Fields → Fields → Prop where
  | nil : TwinFields σ n [] []
  | skip {key : String} {v : Value} {fs gs : Fields} (metadata : Syntax.metadataKeys.contains key = true)
      (rest : TwinFields σ n fs gs) : TwinFields σ n ((key, v) :: fs) gs
  | cons {key : String} {v w : Value} {fs gs : Fields} (proper : Syntax.metadataKeys.contains key = false)
      (twin : Twin σ n v w) (rest : TwinFields σ n fs gs) : TwinFields σ n ((key, v) :: fs) ((key, w) :: gs)

variable {σ τ : Nat → Nat} {n : Nat}

open Value

theorem forall₂_twin_iff {xs ys : List Value} :
    List.Forall₂ (Twin σ n) xs ys ↔ xs.map strip = ys.map (rename σ) ∧ ∀ m ∈ marksItems ys, m < n := by
  induction xs generalizing ys with
  | nil =>
    cases ys with
    | nil => exact ⟨fun _ => ⟨rfl, nofun⟩, fun _ => .nil⟩
    | cons y ys => exact ⟨nofun, fun h => by cases h.1⟩
  | cons x xs ih =>
    cases ys with
    | nil => exact ⟨nofun, fun h => by cases h.1⟩
    | cons y ys =>
      rw [List.forall₂_cons, ih, List.map_cons, List.map_cons, List.cons.injEq, marksItems_cons]
      simp only [Twin, List.mem_append]
      constructor
      · rintro ⟨⟨hxy, hy⟩, hrest, hys⟩
        exact ⟨⟨hxy, hrest⟩, fun m hm => hm.elim (hy m) (hys m)⟩
      · rintro ⟨⟨hxy, hrest⟩, hall⟩
        exact ⟨⟨hxy, fun m hm => hall m (.inl hm)⟩, hrest, fun m hm => hall m (.inr hm)⟩

theorem twinFields_iff {fs gs : Fields} :
    TwinFields σ n fs gs ↔ stripFields fs = renameFields σ gs ∧ ∀ m ∈ marksFields gs, m < n := by
  constructor
  · intro h
    induction h with
    | nil => exact ⟨rfl, nofun⟩
    | skip hk _ ih => rw [stripFields, if_pos hk]; exact ih
    | cons hk hvw _ ih =>
      rw [stripFields, if_neg (by rw [hk]; exact Bool.false_ne_true), renameFields, hvw.1, ih.1, marksFields_cons]
      exact ⟨rfl, fun m hm => (List.mem_append.mp hm).elim (hvw.2 m) (ih.2 m)⟩
  · intro h
    induction fs generalizing gs with
    | nil =>
      cases gs with
      | nil => exact .nil
      | cons g gs => cases h.1
    | cons f fs ih =>
      obtain ⟨key, v⟩ := f
      rw [stripFields] at h
      by_cases hk : Syntax.metadataKeys.contains key = true
      · rw [if_pos hk] at h
        exact .skip hk (ih h)
      · rw [if_neg hk] at h
        cases gs with
        | nil => cases h.1
        | cons g gs =>
          obtain ⟨k, w⟩ := g
          obtain ⟨heq, hall⟩ := h
          rw [renameFields, List.cons.injEq, Prod.mk.injEq] at heq
          obtain ⟨⟨rfl, hvw⟩, hrest⟩ := heq
          rw [marksFields_cons] at hall
          exact .cons (by simpa using hk) ⟨hvw, fun m hm => hall m (List.mem_append_left _ hm)⟩
            (ih ⟨hrest, fun m hm => hall m (List.mem_append_right _ hm)⟩)

namespace Twin

theorem leaf {v w : Value} (hv : v.isCompound = false) (h : Twin σ n v w) : w = v := by
  have heq := h.1
  have hstrip : v.strip = v := regular_strip.leaf v hv
  rw [hstrip] at heq
  cases w with
  | list m xs => rw [heq, rename] at hv; cases hv
  | tuple xs => rw [heq, rename] at hv; cases hv
  | object m fs => rw [heq, rename] at hv; cases hv
  | _ => exact heq.symm

theorem of_leaf {v : Value} (hv : v.isCompound = false) : Twin σ n v v := by
  refine ⟨?_, fun m hm => ?_⟩
  · cases v <;> first | rfl | cases hv
  · rw [marks_leaf hv] at hm
    exact absurd hm List.not_mem_nil

theorem list_iff {m : Nat} {xs : List Value} {w : Value} :
    Twin σ n (.list m xs) w ↔ ∃ k ys, w = .list k ys ∧ σ k = m ∧ k < n ∧ List.Forall₂ (Twin σ n) xs ys := by
  constructor
  · rintro ⟨heq, hw⟩
    rw [strip, stripItems_eq_map] at heq
    cases w with
    | list k ys =>
      rw [rename, renameItems_eq_map] at heq
      rw [marks_list] at hw
      obtain ⟨rfl, hxs⟩ := Value.list.inj heq
      exact ⟨k, ys, rfl, rfl, hw k List.mem_cons_self,
        forall₂_twin_iff.mpr ⟨hxs, fun m hm => hw m (List.mem_cons_of_mem _ hm)⟩⟩
    | _ => cases heq
  · rintro ⟨k, ys, rfl, rfl, hk, hxs⟩
    obtain ⟨hmap, hall⟩ := forall₂_twin_iff.mp hxs
    refine ⟨by rw [strip, stripItems_eq_map, rename, renameItems_eq_map, hmap], fun m hm => ?_⟩
    rw [marks_list] at hm
    rcases List.mem_cons.mp hm with rfl | hm
    · exact hk
    · exact hall m hm

theorem tuple_iff {xs : List Value} {w : Value} (hn : 0 < n) :
    Twin σ n (.tuple xs) w ↔ ∃ ys, w = .tuple ys ∧ List.Forall₂ (Twin σ n) xs ys := by
  constructor
  · rintro ⟨heq, hw⟩
    rw [strip, stripItems_eq_map] at heq
    cases w with
    | tuple ys =>
      rw [rename, renameItems_eq_map] at heq
      rw [marks_tuple] at hw
      exact ⟨ys, rfl, forall₂_twin_iff.mpr ⟨Value.tuple.inj heq, fun m hm => hw m (List.mem_cons_of_mem _ hm)⟩⟩
    | _ => cases heq
  · rintro ⟨ys, rfl, hxs⟩
    obtain ⟨hmap, hall⟩ := forall₂_twin_iff.mp hxs
    refine ⟨by rw [strip, stripItems_eq_map, rename, renameItems_eq_map, hmap], fun m hm => ?_⟩
    rw [marks_tuple] at hm
    rcases List.mem_cons.mp hm with rfl | hm
    · exact hn
    · exact hall m hm

theorem object_iff {m : Nat} {fs : Fields} {w : Value} :
    Twin σ n (.object m fs) w ↔ ∃ k gs, w = .object k gs ∧ σ k = m ∧ k < n ∧ TwinFields σ n fs gs := by
  constructor
  · rintro ⟨heq, hw⟩
    rw [strip] at heq
    cases w with
    | object k gs =>
      rw [rename] at heq
      rw [marks_object] at hw
      obtain ⟨rfl, hfs⟩ := Value.object.inj heq
      exact ⟨k, gs, rfl, rfl, hw k List.mem_cons_self,
        twinFields_iff.mpr ⟨hfs, fun m hm => hw m (List.mem_cons_of_mem _ hm)⟩⟩
    | _ => cases heq
  · rintro ⟨k, gs, rfl, rfl, hk, hfs⟩
    obtain ⟨heq, hall⟩ := twinFields_iff.mp hfs
    refine ⟨by rw [strip, rename, heq], fun m hm => ?_⟩
    rw [marks_object] at hm
    rcases List.mem_cons.mp hm with rfl | hm
    · exact hk
    · exact hall m hm

/-- Twins stay twins when more marks come into use. -/
theorem mono {n' : Nat} {v w : Value} (h : Twin σ n v w) (hle : n ≤ n') (heq : ∀ m, m < n → τ m = σ m) :
    Twin τ n' v w := by
  refine ⟨h.1.trans (rename_congr fun m hm => (heq m (h.2 m hm)).symm), fun m hm => ?_⟩
  exact Nat.lt_of_lt_of_le (h.2 m hm) hle

theorem erase {v w : Value} (h : Twin σ n v w) : w.erase = v.strip.erase := by
  rw [h.1, erase_rename]

end Twin

theorem TwinFields.mono {n' : Nat} {fs gs : Fields} (h : TwinFields σ n fs gs) (hle : n ≤ n')
    (heq : ∀ m, m < n → τ m = σ m) : TwinFields τ n' fs gs := by
  induction h with
  | nil => exact .nil
  | skip hk _ ih => exact .skip hk ih
  | cons hk hvw _ ih => exact .cons hk (hvw.mono hle heq) ih

theorem forall₂_twin_mono {n' : Nat} {xs ys : List Value} (h : List.Forall₂ (Twin σ n) xs ys) (hle : n ≤ n')
    (heq : ∀ m, m < n → τ m = σ m) : List.Forall₂ (Twin τ n') xs ys :=
  h.imp fun _ _ hxy => hxy.mono hle heq

/-! ## Bringing twins up to date -/

theorem forall₂_map_of_mem {α β γ δ : Type} {R : α → β → Prop} {S : γ → δ → Prop} {f : α → γ} {g : β → δ}
    {xs : List α} {ys : List β} (h : List.Forall₂ R xs ys) (hfg : ∀ x ∈ xs, ∀ y, R x y → S (f x) (g y)) :
    List.Forall₂ S (xs.map f) (ys.map g) := by
  induction h with
  | nil => exact .nil
  | cons hxy _ ih =>
    obtain ⟨hx, hrest⟩ := List.forall_mem_cons.mp hfg
    exact .cons (hx _ hxy) (ih hrest)

theorem TwinFields.map_of_mem {f g : Value → Value} {fs gs : Fields} (h : TwinFields σ n fs gs)
    (hfg : ∀ e ∈ fs, ∀ w, Twin σ n e.2 w → Twin σ n (f e.2) (g w)) :
    TwinFields σ n (fs.map fun e => (e.1, f e.2)) (gs.map fun e => (e.1, g e.2)) := by
  induction h with
  | nil => exact .nil
  | skip hk _ ih => exact .skip hk (ih (List.forall_mem_cons.mp hfg).2)
  | cons hk hvw _ ih =>
    obtain ⟨hv, hrest⟩ := List.forall_mem_cons.mp hfg
    exact .cons hk (hv _ hvw) (ih hrest)

/-- Revisions side by side: under the marks below `n` there are twins, or nothing. -/
def TwinRevisions (σ : Nat → Nat) (n : Nat) (R S : Revisions) : Prop :=
  ∀ k, k < n → Option.Rel (Twin σ n) (R.lookup (σ k)) (S.lookup k)

/-- **Twins that are brought up to date are twins.** -/
theorem Twin.refresh {R S : Revisions} {v w : Value} (h : Twin σ n v w) (hn : 0 < n) (hRS : TwinRevisions σ n R S) :
    Twin σ n (v.refresh R) (w.refresh S) := by
  induction v using Value.induction generalizing w with
  | leaf v hv =>
    rw [h.leaf hv, refresh_leaf hv, refresh_leaf hv]
    exact .of_leaf hv
  | list m xs ih =>
    obtain ⟨k, ys, rfl, rfl, hk, hxs⟩ := Twin.list_iff.mp h
    have hrel := hRS k hk
    rw [Value.refresh, Value.refresh, refreshItems_eq_map, refreshItems_eq_map]
    generalize R.lookup (σ k) = a at hrel ⊢
    generalize S.lookup k = b at hrel ⊢
    cases hrel with
    | some hcd => exact hcd
    | none => exact Twin.list_iff.mpr ⟨k, _, rfl, rfl, hk, forall₂_map_of_mem hxs fun x hx y hxy => ih x hx hxy⟩
  | tuple xs ih =>
    obtain ⟨ys, rfl, hxs⟩ := (Twin.tuple_iff hn).mp h
    rw [Value.refresh, Value.refresh, refreshItems_eq_map, refreshItems_eq_map]
    exact (Twin.tuple_iff hn).mpr ⟨_, rfl, forall₂_map_of_mem hxs fun x hx y hxy => ih x hx hxy⟩
  | object m fs ih =>
    obtain ⟨k, gs, rfl, rfl, hk, hfs⟩ := Twin.object_iff.mp h
    have hrel := hRS k hk
    rw [Value.refresh, Value.refresh, refreshFields_eq_map, refreshFields_eq_map]
    generalize R.lookup (σ k) = a at hrel ⊢
    generalize S.lookup k = b at hrel ⊢
    cases hrel with
    | some hcd => exact hcd
    | none => exact Twin.object_iff.mpr ⟨k, _, rfl, rfl, hk, hfs.map_of_mem fun f hf w hvw => ih f hf hvw⟩

/-! ## Marks side by side -/

/-- A renaming of the marks below `n` to marks below `N`, one to one. -/
structure Renaming (σ : Nat → Nat) (N n : Nat) : Prop where
  pos : 0 < n
  zero : σ 0 = 0
  inj : ∀ j k, j < n → k < n → σ j = σ k → j = k
  below : ∀ k, k < n → σ k < N

/-- From one renaming to the next: it stays as it was, and new marks are renamed to new ones. -/
structure Advance (σ τ : Nat → Nat) (N n N' n' : Nat) : Prop where
  after : Renaming τ N' n'
  agree : ∀ k, k < n → τ k = σ k
  fresh : ∀ k, n ≤ k → k < n' → N ≤ τ k
  le : n ≤ n'
  le_left : N ≤ N'

variable {N N' n' N'' n'' : Nat} {υ : Nat → Nat}

theorem Renaming.eq_zero (h : Renaming σ N n) {k : Nat} (hk : k < n) : σ k = 0 ↔ k = 0 := by
  constructor
  · intro h0
    exact h.inj k 0 hk h.pos (h0.trans h.zero.symm)
  · rintro rfl
    exact h.zero

theorem Advance.refl (h : Renaming σ N n) : Advance σ σ N n N n :=
  ⟨h, fun _ _ => rfl, fun _ hle hlt => absurd hlt (Nat.not_lt.mpr hle), Nat.le_refl n, Nat.le_refl N⟩

/-- Marks are used up on the side of the original only. -/
theorem Advance.skip (h : Renaming σ N n) (hle : N ≤ N') : Advance σ σ N n N' n :=
  ⟨⟨h.pos, h.zero, h.inj, fun k hk => Nat.lt_of_lt_of_le (h.below k hk) hle⟩, fun _ _ => rfl,
    fun _ hle hlt => absurd hlt (Nat.not_lt.mpr hle), Nat.le_refl n, hle⟩

theorem Advance.trans (h : Advance σ τ N n N' n') (h' : Advance τ υ N' n' N'' n'') : Advance σ υ N n N'' n'' where
  after := h'.after
  agree k hk := (h'.agree k (Nat.lt_of_lt_of_le hk h.le)).trans (h.agree k hk)
  fresh k hle hlt := by
    by_cases hk : k < n'
    · rw [h'.agree k hk]
      exact h.fresh k hle hk
    · exact Nat.le_trans h.le_left (h'.fresh k (Nat.not_lt.mp hk) hlt)
  le := Nat.le_trans h.le h'.le
  le_left := Nat.le_trans h.le_left h'.le_left

/-- The next marks on both sides belong together. -/
theorem Advance.push (h : Renaming σ N n) :
    Advance σ (fun k => if k = n then N else σ k) N n (N + 1) (n + 1) := by
  have hold (k : Nat) (hk : k < n) : (if k = n then N else σ k) = σ k := if_neg (Nat.ne_of_lt hk)
  have hcases (k : Nat) (hk : k < n + 1) : k = n ∨ k < n := (Nat.lt_succ_iff_lt_or_eq.mp hk).symm
  refine ⟨⟨Nat.succ_pos n, (hold 0 h.pos).trans h.zero, fun j k hj hk heq => ?_, fun k hk => ?_⟩, hold,
    fun k hle hlt => ?_, Nat.le_succ n, Nat.le_succ N⟩
  · rcases hcases j hj with rfl | hj
    · rcases hcases k hk with rfl | hk
      · rfl
      · rw [if_pos rfl, hold k hk] at heq
        exact absurd (h.below k hk) (by omega)
    · rcases hcases k hk with rfl | hk
      · rw [if_pos rfl, hold j hj] at heq
        exact absurd (h.below j hj) (by omega)
      · rw [hold j hj, hold k hk] at heq
        exact h.inj j k hj hk heq
  · rcases hcases k hk with rfl | hk
    · rw [if_pos rfl]
      exact Nat.lt_succ_self N
    · rw [hold k hk]
      exact Nat.lt_succ_of_lt (h.below k hk)
  · rcases hcases k hlt with rfl | hk
    · exact Nat.le_of_eq (if_pos rfl).symm
    · exact absurd hk (Nat.not_lt.mpr hle)

theorem Twin.advance {v w : Value} (h : Twin σ n v w) (ha : Advance σ τ N n N' n') : Twin τ n' v w :=
  h.mono ha.le ha.agree

theorem TwinFields.advance {fs gs : Fields} (h : TwinFields σ n fs gs) (ha : Advance σ τ N n N' n') :
    TwinFields τ n' fs gs :=
  h.mono ha.le ha.agree

theorem forall₂_twin_advance {xs ys : List Value} (h : List.Forall₂ (Twin σ n) xs ys) (ha : Advance σ τ N n N' n') :
    List.Forall₂ (Twin τ n') xs ys :=
  forall₂_twin_mono h ha.le ha.agree

mutual
/-- **Twins get marks side by side.** What is stripped away gets marks on one side only. -/
theorem twin_stamp {σ : Nat → Nat} {N n : Nat} (hσ : Renaming σ N n) : (v : Value) → {w : Value} → Twin σ n v w →
    ∃ τ, Advance σ τ N n (v.stamp N).2 (w.stamp n).2 ∧ Twin τ (w.stamp n).2 (v.stamp N).1 (w.stamp n).1
  | .null, _, h | .bool _, _, h | .int _, _, h | .double _, _, h | .text _, _, h => by
    rw [h.leaf rfl]
    exact ⟨σ, .refl hσ, .of_leaf rfl⟩
  | .tuple xs, _, h => by
    obtain ⟨ys, rfl, hxs⟩ := (Twin.tuple_iff hσ.pos).mp h
    obtain ⟨τ, ha, hall⟩ := twin_stampItems hσ xs hxs
    exact ⟨τ, ha, (Twin.tuple_iff ha.after.pos).mpr ⟨_, rfl, hall⟩⟩
  | .list _ xs, _, h => by
    obtain ⟨k, ys, rfl, rfl, hk, hxs⟩ := Twin.list_iff.mp h
    rw [stamp, stamp]
    by_cases h0 : k = 0
    · rw [if_pos h0, if_pos ((hσ.eq_zero hk).mpr h0)]
      have hpush := Advance.push hσ
      obtain ⟨τ, ha, hall⟩ := twin_stampItems hpush.after xs (forall₂_twin_advance hxs hpush)
      refine ⟨τ, hpush.trans ha, Twin.list_iff.mpr ⟨n, _, rfl, ?_, Nat.lt_of_succ_le ha.le, hall⟩⟩
      rw [ha.agree n (Nat.lt_succ_self n)]
      exact if_pos rfl
    · rw [if_neg h0, if_neg (mt (hσ.eq_zero hk).mp h0)]
      obtain ⟨τ, ha, hall⟩ := twin_stampItems hσ xs hxs
      exact ⟨τ, ha, Twin.list_iff.mpr ⟨k, _, rfl, ha.agree k hk, Nat.lt_of_lt_of_le hk ha.le, hall⟩⟩
  | .object _ fs, _, h => by
    obtain ⟨k, gs, rfl, rfl, hk, hfs⟩ := Twin.object_iff.mp h
    rw [stamp, stamp]
    by_cases h0 : k = 0
    · rw [if_pos h0, if_pos ((hσ.eq_zero hk).mpr h0)]
      have hpush := Advance.push hσ
      obtain ⟨τ, ha, hall⟩ := twin_stampFields hpush.after fs (hfs.advance hpush)
      refine ⟨τ, hpush.trans ha, Twin.object_iff.mpr ⟨n, _, rfl, ?_, Nat.lt_of_succ_le ha.le, hall⟩⟩
      rw [ha.agree n (Nat.lt_succ_self n)]
      exact if_pos rfl
    · rw [if_neg h0, if_neg (mt (hσ.eq_zero hk).mp h0)]
      obtain ⟨τ, ha, hall⟩ := twin_stampFields hσ fs hfs
      exact ⟨τ, ha, Twin.object_iff.mpr ⟨k, _, rfl, ha.agree k hk, Nat.lt_of_lt_of_le hk ha.le, hall⟩⟩

theorem twin_stampItems {σ : Nat → Nat} {N n : Nat} (hσ : Renaming σ N n) : (xs : List Value) → {ys : List Value} →
    List.Forall₂ (Twin σ n) xs ys →
    ∃ τ, Advance σ τ N n (stampItems N xs).2 (stampItems n ys).2 ∧
      List.Forall₂ (Twin τ (stampItems n ys).2) (stampItems N xs).1 (stampItems n ys).1
  | [], _, .nil => ⟨σ, .refl hσ, .nil⟩
  | x :: rest, _, .cons hxy hrest => by
    obtain ⟨τ, ha, htwin⟩ := twin_stamp hσ x hxy
    obtain ⟨υ, hb, hall⟩ := twin_stampItems ha.after rest (forall₂_twin_advance hrest ha)
    exact ⟨υ, ha.trans hb, .cons (htwin.advance hb) hall⟩

theorem twin_stampFields {σ : Nat → Nat} {N n : Nat} (hσ : Renaming σ N n) : (fs : List (String × Value)) →
    {gs : List (String × Value)} → TwinFields σ n fs gs →
    ∃ τ, Advance σ τ N n (stampFields N fs).2 (stampFields n gs).2 ∧
      TwinFields τ (stampFields n gs).2 (stampFields N fs).1 (stampFields n gs).1
  | [], _, .nil => ⟨σ, .refl hσ, .nil⟩
  | (key, v) :: rest, _, .skip hk hrest => by
    have hskip := Advance.skip hσ (count_marks_stamp Nat.one_pos N v).1
    obtain ⟨τ, ha, hall⟩ := twin_stampFields hskip.after rest hrest
    exact ⟨τ, hskip.trans ha, .skip hk hall⟩
  | (key, v) :: rest, _, .cons hk hvw hrest => by
    obtain ⟨τ, ha, htwin⟩ := twin_stamp hσ v hvw
    obtain ⟨υ, hb, hall⟩ := twin_stampFields ha.after rest (hrest.advance ha)
    exact ⟨υ, ha.trans hb, .cons hk (htwin.advance hb) hall⟩
end

/-! ## Locating a statement -/

/-- Whether a value is a given object is told alike on both sides. -/
theorem Twin.same {x y v w : Value} (hσ : Renaming σ N n) (hx : Twin σ n x y) (h : Twin σ n v w)
    (ho : v.isObject = true) : x.same v = y.same w := by
  cases v with
  | object m fs =>
    obtain ⟨k, gs, rfl, rfl, hk, _⟩ := Twin.object_iff.mp h
    cases x with
    | object m' fs' =>
      obtain ⟨k', gs', rfl, rfl, hk', _⟩ := Twin.object_iff.mp hx
      have heq : (σ k' == σ k) = (k' == k) := by
        rw [Bool.eq_iff_iff, beq_iff_eq, beq_iff_eq]
        exact ⟨hσ.inj k' k hk' hk, congrArg σ⟩
      have hzero : (σ k' != 0) = (k' != 0) := by
        rw [Bool.eq_iff_iff, bne_iff_ne, bne_iff_ne]
        exact not_congr (hσ.eq_zero hk')
      rw [Value.same, Value.same, heq, hzero]
    | list m' xs => obtain ⟨k', ys, rfl, _⟩ := Twin.list_iff.mp hx; rfl
    | tuple xs => obtain ⟨ys, rfl, _⟩ := (Twin.tuple_iff hσ.pos).mp hx; rfl
    | _ => rw [hx.leaf rfl]; rfl
  | _ => cases ho

/-- **A statement and its twin stand at the same place.** -/
theorem Replacement.twin_locate {v w : Value} {xs ys : List Value} (hσ : Renaming σ N n) (h : Twin σ n v w)
    (ho : v.isObject = true) (hxs : List.Forall₂ (Twin σ n) xs ys) :
    Option.Rel (fun p q => List.Forall₂ (Twin σ n) p.1 q.1 ∧ List.Forall₂ (Twin σ n) p.2 q.2)
      (locate v xs) (locate w ys) := by
  induction hxs with
  | nil => exact .none
  | @cons x y xs ys hxy hrest ih =>
    rw [locate, locate, hxy.same hσ h ho]
    by_cases hsame : y.same w = true
    · rw [if_pos hsame, if_pos hsame]
      exact .some ⟨.nil, hrest⟩
    · rw [if_neg hsame, if_neg hsame]
      generalize locate v xs = a at ih ⊢
      generalize locate w ys = b at ih ⊢
      cases ih with
      | none => exact .none
      | some hparts => exact .some ⟨.cons hxy hparts.1, hparts.2⟩

/-! ## Splitting a statement -/

/-- What stands under a key has a twin under that key. -/
theorem Twin.require {v w x : Value} {key : String} (hσ : σ 0 = 0) (h : Twin σ n v w)
    (hk : Syntax.metadataKeys.contains key = false) (hx : v.require key = .ok x) :
    ∃ y, w.require key = .ok y ∧ Twin σ n x y := by
  have hmap : (w.require key).map (rename σ) = .ok x.strip := by
    rw [← Require.require_regular (regular_rename hσ) w hk, ← h.1, Require.require_regular regular_strip v hk, hx]
    rfl
  obtain ⟨y, hy, heq⟩ := map_ok hmap
  refine ⟨y, hy, heq.symm, fun m hm => h.2 m ?_⟩
  obtain ⟨k, gs, rfl, hl⟩ := Value.exists_of_get? (Require.get?_of_require hy)
  rw [marks_object]
  exact List.mem_cons_of_mem _ (List.mem_flatMap.mpr ⟨_, Fields.mem_of_lookup hl, hm⟩)

/-- There is no metadata on the side of the twins. -/
theorem TwinFields.lookup_metadata {fs gs : Fields} {key : String} (h : TwinFields σ n fs gs)
    (hk : Syntax.metadataKeys.contains key = true) : gs.lookup key = none := by
  have hlookup := lookup_stripFields_metadata fs hk
  rwa [(twinFields_iff.mp h).1, lookup_renameFields, Option.map_eq_none_iff] at hlookup

theorem Twin.field_metadata {m : Nat} {fs : Fields} {w : Value} {key : String} (h : Twin σ n (.object m fs) w)
    (hk : Syntax.metadataKeys.contains key = true) : w.field key = .ok .null := by
  obtain ⟨k, gs, rfl, _, _, hfs⟩ := Twin.object_iff.mp h
  show Except.ok ((gs.lookup key).getD .null) = _
  rw [hfs.lookup_metadata hk]
  rfl

/-- Comments that are put into an object are gone when it is stripped. -/
theorem stripFields_put (fs : Fields) {key : String} (hk : Syntax.metadataKeys.contains key = true) (v : Value) :
    stripFields (Fields.put fs key v) = stripFields fs := by
  induction fs with
  | nil =>
    show (if Syntax.metadataKeys.contains key then [] else _) = []
    exact if_pos hk
  | cons f rest ih =>
    obtain ⟨k, x⟩ := f
    rw [Fields.put]
    by_cases h : k = key
    · subst h
      rw [if_pos rfl, stripFields, stripFields, if_pos hk, if_pos hk]
    · rw [if_neg h, stripFields, stripFields, ih]

theorem strip_copyKeys {e s t : Value} (hs : s.isObject = true) (keys : List String)
    (hkeys : ∀ key ∈ keys, Syntax.metadataKeys.contains key = true) (h : Syntax.copyKeys e s keys = (t, none)) :
    t.strip = s.strip := by
  induction keys generalizing s with
  | nil => cases h; rfl
  | cons k rest ih =>
    obtain ⟨hmeta, hrest⟩ := List.forall_mem_cons.mp hkeys
    rw [Syntax.copyKeys] at h
    cases s with
    | object m fs =>
      cases hc : Syntax.copyKey e (.object m fs) k with
      | error fault => rw [hc] at h; cases h
      | ok s' =>
        rw [hc] at h
        rcases Syntax.copyKey_ok hc with rfl | ⟨copied, own, _, _, rfl⟩
        · exact ih rfl hrest h
        · rw [ih rfl hrest h, strip, strip, stripFields_put fs hmeta]
    | _ => cases hs

/-- Where there are no comments none are copied. -/
theorem Syntax.copyKeys_of_bare {e : Value} (s : Value) (keys : List String)
    (h : ∀ key ∈ keys, e.field key = .ok .null) : copyKeys e s keys = (s, none) := by
  induction keys with
  | nil => rfl
  | cons key rest ih =>
    obtain ⟨hkey, hrest⟩ := List.forall_mem_cons.mp h
    have hcopy : copyKey e s key = .ok s := by
      unfold copyKey
      rw [hkey]
      rfl
    rw [copyKeys, hcopy]
    exact ih hrest

theorem Piece.marks_head {kind : Value} {p : Piece} {m : Nat} (h : m ∈ marksFields (p.head kind)) : m ∈ kind.marks := by
  unfold Piece.head at h
  split at h
  · rw [marksFields_cons, marksFields_cons, marksFields_nil, List.append_nil] at h
    exact h
  · exact absurd h List.not_mem_nil

namespace Statement

theorem strip_commented {e : Value} {ns nodes : List Value} (hns : ∀ s ∈ ns, s.isObject = true)
    (h : commented e ns = .ok nodes) : nodes.map strip = ns.map strip := by
  cases ns with
  | nil => cases h; rfl
  | cons first rest =>
    rw [commented] at h
    split at h
    · rename_i t ht
      cases h
      rw [List.map_cons, List.map_cons, strip_copyKeys (hns _ List.mem_cons_self) _ (by decide) ht]
    · cases h

theorem commented_of_bare {e : Value} (ns : List Value) (h : ∀ key ∈ Syntax.commentKeys, e.field key = .ok .null) :
    commented e ns = .ok ns := by
  cases ns with
  | nil => rfl
  | cons first rest => rw [commented, Syntax.copyComments, Syntax.copyKeys_of_bare first _ h]

theorem pieces_objects {kind : Value} {ds ns : List Value} (h : pieces kind ds = .ok ns) :
    ∀ s ∈ ns, s.isObject = true := by
  induction ds generalizing ns with
  | nil => cases h; nofun
  | cons d rest ih =>
    obtain ⟨s, hs, h⟩ := bind_ok h
    obtain ⟨ns', hns', h⟩ := bind_ok h
    cases h
    obtain ⟨m, fs, rfl⟩ := Require.statement_object hs
    exact List.forall_mem_cons.mpr ⟨rfl, ih hns'⟩

/-- Every mark in the pieces of a statement is in the statement. -/
theorem marks_split {keepComments : Bool} {e : Value} {r : Replacement} (h : split keepComments e = .ok r) :
    ∀ m ∈ marksItems r.nodes, m = 0 ∨ m ∈ e.marks := by
  obtain ⟨_, kind, declarations, ds, ps, _, _, _, hps, hnodes, hcount⟩ := split_ok h
  intro m hm
  rcases Nat.eq_zero_or_pos m with h0 | hpos
  · exact .inl h0
  -- the mark is in a piece or in the kind, and neither has more of it than the statement
  have hin : m ∈ marksItems (ps.map Piece.own) ∨ m ∈ kind.marks := by
    rw [hnodes] at hm
    obtain ⟨node, hnode, hm⟩ := List.mem_flatMap.mp hm
    obtain ⟨p, hp, rfl⟩ := List.mem_map.mp hnode
    rw [Piece.value, marks_object, marksFields_append, List.mem_cons, List.mem_append] at hm
    rcases hm with rfl | hm | hm
    · exact absurd (hps p hp).unmarked (Nat.ne_of_gt hpos)
    · exact .inr (Piece.marks_head hm)
    · refine .inl (List.mem_flatMap.mpr ⟨p.own, List.mem_map_of_mem hp, ?_⟩)
      rw [Piece.own, marks_object]
      exact List.mem_cons_of_mem _ hm
  have hle := hcount m hpos
  have hone : 0 < (marksItems (ps.map Piece.own)).count m + kind.marks.count m :=
    hin.elim (fun h => Nat.add_pos_left (List.count_pos_iff.mpr h) _)
      fun h => Nat.add_pos_right _ (List.count_pos_iff.mpr h)
  exact .inr (List.count_pos_iff.mp (Nat.lt_of_lt_of_le hone hle))

/-- **Twins are split into twins.** -/
theorem twin_split {keepComments : Bool} {v w : Value} {r : Replacement} (hσ : Renaming σ N n) (h : Twin σ n v w)
    (hload : loads v = true) (hr : split keepComments v = .ok r) :
    ∃ s, split keepComments w = .ok s ∧ s.target = w ∧ List.Forall₂ (Twin σ n) r.nodes s.nodes := by
  obtain ⟨kind, hkind, hr⟩ := bind_ok hr
  obtain ⟨declarations, hdecl, hr⟩ := bind_ok hr
  obtain ⟨ds, hds, hr⟩ := bind_ok hr
  obtain ⟨ns, hns, hr⟩ := bind_ok hr
  obtain ⟨kind', hkind', hkinds⟩ := h.require hσ.zero (by decide) hkind
  obtain ⟨declarations', hdecl', hdecls⟩ := h.require hσ.zero (by decide) hdecl
  -- the declarators of a candidate are the items of a list or tuple, and those of its twin their twins
  have hitems : ∃ es, declarations'.items = .ok es ∧ ds.map strip = es.map (rename σ) := by
    rcases declarations_of_loads hload (Require.get?_of_require hdecl) with ⟨m, xs, rfl⟩ | ⟨xs, rfl⟩
    · obtain ⟨k, es, rfl, _, _, hall⟩ := Twin.list_iff.mp hdecls
      cases hds
      exact ⟨es, rfl, (forall₂_twin_iff.mp hall).1⟩
    · obtain ⟨es, rfl, hall⟩ := (Twin.tuple_iff hσ.pos).mp hdecls
      cases hds
      exact ⟨es, rfl, (forall₂_twin_iff.mp hall).1⟩
  obtain ⟨es, hes, hall⟩ := hitems
  have hpieces : (pieces kind' es).map (List.map (rename σ)) = .ok (ns.map strip) := by
    rw [← pieces_regular (regular_rename hσ.zero), ← hkinds.1, ← hall, pieces_regular regular_strip, hns]
    rfl
  obtain ⟨ns', hns', hmap⟩ := map_ok hpieces
  have hobjects : ∀ s ∈ ns, s.isObject = true := pieces_objects hns
  have hbare : ∀ key ∈ Syntax.commentKeys, w.field key = .ok .null := by
    obtain ⟨m, fs, rfl, _⟩ := Value.exists_of_get? (Require.get?_of_require hkind)
    have hmeta : ∀ key ∈ Syntax.commentKeys, Syntax.metadataKeys.contains key = true := by decide
    exact fun key hkey => h.field_metadata (hmeta key hkey)
  have hsplit : split keepComments w = .ok { target := w, nodes := ns' } := by
    unfold split
    rw [hkind', hdecl']
    show (declarations'.items >>= fun ds => pieces kind' ds >>= fun nodes => _) = _
    rw [hes]
    show (pieces kind' es >>= fun nodes => _) = _
    rw [hns']
    cases keepComments with
    | false => rfl
    | true =>
      show (commented w ns' >>= fun nodes => _) = _
      rw [commented_of_bare ns' hbare]
      rfl
  have hnodes : r.nodes.map strip = ns.map strip := by
    cases keepComments with
    | false => cases hr; rfl
    | true =>
      obtain ⟨nodes, hcomm, hr⟩ := bind_ok (x := commented v _) hr
      cases hr
      exact strip_commented hobjects hcomm
  refine ⟨_, hsplit, rfl, forall₂_twin_iff.mpr ⟨hnodes.trans hmap.symm, fun m hm => ?_⟩⟩
  rcases marks_split hsplit m hm with rfl | hm
  · exact hσ.pos
  · exact h.2 m hm

end Statement

end EsmLift
