import EsmLift.Proofs.Reach
import Mathlib.Algebra.Ring.Nat

/-!
# `Proofs.Parts` — what a declarator hands over to its import

An import is built from parts of the declarator it stands for: the names on the left, the property, the literal
that names the module. These parts are **within** the declarator, each in a place of its own. So an import brings
no object in that was not there, none twice, nothing becomes pending by the move, and nothing gets deeper.

## Contents

* `Value.depth`: how deep a walk can go;
* `Value.Within`, `within_at`, `within_item`;
* `Fields.sum_lookups_le`, `Value.count_ats_le`: different fields are different places;
* `Load.parts`, `Require.load?_cases`, `within_of_load`, `count_parts_le`.
-/

namespace EsmLift

namespace Value

/-! ## Depth -/

mutual
/-- The number of objects and lists on the longest way down, metadata left out. -/
def depth : Value → Nat
  | list _ xs => 1 + depthItems xs
  | tuple xs => 1 + depthItems xs
  | object _ fs => 1 + depthFields fs
  | _ => 0

/-- The depth of the deepest item. -/
def depthItems : List Value → Nat
  | [] => 0
  | v :: rest => max v.depth (depthItems rest)

/-- The depth of the deepest field that is no metadata. -/
def depthFields : List (String × Value) → Nat
  | [] => 0
  | (k, v) :: rest => max (if Syntax.metadataKeys.contains k then 0 else v.depth) (depthFields rest)
end

theorem depth_le_items {x : Value} {xs : List Value} (h : x ∈ xs) : x.depth ≤ depthItems xs := by
  induction xs with
  | nil => exact absurd h List.not_mem_nil
  | cons y rest ih =>
    rw [depthItems]
    rcases List.mem_cons.mp h with rfl | h
    · exact Nat.le_max_left _ _
    · exact Nat.le_trans (ih h) (Nat.le_max_right _ _)

theorem depth_le_fields {f : String × Value} {fs : Fields} (h : f ∈ fs)
    (hk : Syntax.metadataKeys.contains f.1 = false) : f.2.depth ≤ depthFields fs := by
  induction fs with
  | nil => exact absurd h List.not_mem_nil
  | cons g rest ih =>
    obtain ⟨k, v⟩ := g
    rw [depthFields]
    rcases List.mem_cons.mp h with rfl | h
    · rw [if_neg (by rw [hk]; exact Bool.false_ne_true)]
      exact Nat.le_max_left _ _
    · exact Nat.le_trans (ih h) (Nat.le_max_right _ _)

theorem depthItems_le {xs : List Value} {d : Nat} (h : ∀ x ∈ xs, x.depth ≤ d) : depthItems xs ≤ d := by
  induction xs with
  | nil => exact Nat.zero_le d
  | cons x rest ih =>
    rw [depthItems]
    exact Nat.max_le.mpr ⟨h x List.mem_cons_self, ih fun y hy => h y (List.mem_cons_of_mem _ hy)⟩

/-! ## Within -/

/-- The value `w` stands below `v`, on a way that leads through no program and no metadata. -/
structure Within (w v : Value) : Prop where
  compounds : ∀ c ∈ w.compounds, c ∈ v.compounds
  pending : ∀ k ∈ pendingSlot false w, k ∈ pendingSlot false v
  depth : w.depth < v.depth

theorem Within.trans {u v w : Value} (h : w.Within v) (h' : v.Within u) : w.Within u where
  compounds c hc := h'.compounds c (h.compounds c hc)
  pending k hk := h'.pending k (h.pending k hk)
  depth := Nat.lt_trans h.depth h'.depth

theorem mem_pendingFields {program : Bool} {fs : Fields} {f : String × Value} {k : Nat} (hf : f ∈ fs)
    (hk : Syntax.metadataKeys.contains f.1 = false) (h : k ∈ pendingSlot program f.2) :
    k ∈ pendingFields program fs := by
  induction fs with
  | nil => exact absurd hf List.not_mem_nil
  | cons g rest ih =>
    obtain ⟨key, v⟩ := g
    rw [pendingFields]
    rcases List.mem_cons.mp hf with rfl | hf
    · rw [if_neg (by rw [hk]; exact Bool.false_ne_true)]
      exact List.mem_append_left _ h
    · exact List.mem_append_right _ (ih hf)

theorem mem_pendingItems {program : Bool} {xs : List Value} {x : Value} {k : Nat} (hx : x ∈ xs)
    (hn : x.isNode = true) (h : k ∈ x.pending) : k ∈ pendingItems program xs := by
  induction xs with
  | nil => exact absurd hx List.not_mem_nil
  | cons y rest ih =>
    rw [pendingItems]
    rcases List.mem_cons.mp hx with rfl | hx
    · rw [if_pos hn]
      exact List.mem_append_left _ (List.mem_append_right _ h)
    · exact List.mem_append_right _ (ih hx)

/-- Outside programs, what is pending among items is pending below one of them. -/
theorem exists_of_pendingItems {xs : List Value} {k : Nat} (h : k ∈ pendingItems false xs) :
    ∃ x ∈ xs, x.isNode = true ∧ k ∈ x.pending := by
  induction xs with
  | nil => exact absurd h List.not_mem_nil
  | cons y rest ih =>
    rw [pendingItems] at h
    rcases List.mem_append.mp h with h | h
    · split at h
      · rename_i hn
        exact ⟨y, List.mem_cons_self, hn, h⟩
      · exact absurd h List.not_mem_nil
    · obtain ⟨x, hx, hxk⟩ := ih h
      exact ⟨x, List.mem_cons_of_mem _ hx, hxk⟩

/-- A field of a node that is no program. -/
theorem within_at {v : Value} {t : NodeType} (hv : v.isA t = true) (ht : t ≠ .program) (key : String)
    (hk : Syntax.metadataKeys.contains key = false) : (v.at key).Within v := by
  have hprog := isA_unique hv ht
  have hnode := isNode_of_isA hv
  cases v with
  | object m fs =>
    have hpend : pendingSlot false (object m fs) = pendingFields false fs := by
      rw [pendingSlot, if_pos hnode, hprog]
    rw [at_object]
    rcases hl : fs.lookup key with _ | w
    · exact ⟨fun c hc => absurd hc List.not_mem_nil, fun k hk => absurd hk List.not_mem_nil,
        by rw [depth]; exact Nat.lt_of_lt_of_le Nat.one_pos (Nat.le_add_right 1 _)⟩
    · have hmem := Fields.mem_of_lookup hl
      refine ⟨fun c hc => mem_compounds_object.mpr (.inr ⟨_, hmem, hc⟩), fun k h => ?_, ?_⟩
      · rw [hpend]
        exact mem_pendingFields hmem hk h
      · have hle := depth_le_fields hmem hk
        rw [depth]
        exact Nat.lt_of_le_of_lt hle (by omega)
  | _ => cases hnode

theorem within_get? {v w : Value} {t : NodeType} (hv : v.isA t = true) (ht : t ≠ .program) {key : String}
    (hk : Syntax.metadataKeys.contains key = false) (h : v.get? key = some w) : w.Within v := by
  have hat := within_at hv ht key hk
  rwa [at_eq h] at hat

/-- A node among the items of a list. -/
theorem within_item {x : Value} {m : Nat} {xs : List Value} (hx : x ∈ xs) (hn : x.isNode = true) :
    x.Within (list m xs) where
  compounds c hc := mem_compounds_list.mpr (.inr ⟨x, hx, hc⟩)
  pending k hk := by
    rw [pendingSlot_node false hn] at hk
    rw [pendingSlot]
    exact List.mem_append_right _ (mem_pendingItems hx hn hk)
  depth := by
    have hle := depth_le_items hx
    rw [depth]
    omega

end Value

/-! ## Different places -/

namespace Fields

variable (w : String → Value → Nat) (hnull : ∀ k, w k .null = 0)

include hnull in
/-- Lookups of different keys find different fields, whatever the fields weigh. -/
theorem sum_lookups_le (fs : Fields) (ks : List String) (hks : ks.Nodup) :
    (ks.map fun k => w k ((fs.lookup k).getD .null)).sum ≤ (fs.map fun f => w f.1 f.2).sum := by
  induction fs generalizing ks with
  | nil =>
    have hzero : (ks.map fun k => w k ((([] : Fields).lookup k).getD .null)) = ks.map fun _ => 0 :=
      List.map_congr_left fun k _ => hnull k
    rw [hzero, List.map_const', List.sum_replicate_nat, Nat.mul_zero]
    exact Nat.zero_le _
  | cons f rest ih =>
    obtain ⟨k, v⟩ := f
    -- the keys other than `k` are looked up in `rest`
    have htail (js : List String) (hjs : js.Nodup) (hk : k ∉ js) :
        (js.map fun j => w j ((((k, v) :: rest : Fields).lookup j).getD .null)).sum
          ≤ (rest.map fun f => w f.1 f.2).sum := by
      have hother (j : String) (hj : j ∈ js) : ((k, v) :: rest : Fields).lookup j = rest.lookup j := by
        have hne : (j == k) = false := by simpa using fun h : j = k => hk (h ▸ hj)
        rw [List.lookup_cons, hne]
      rw [List.map_congr_left fun j hj => by rw [hother j hj]]
      exact ih js hjs
    rw [List.map_cons, List.sum_cons]
    dsimp only
    by_cases hk : k ∈ ks
    · have hsum := ((List.perm_cons_erase hk).map fun j =>
        w j ((((k, v) :: rest : Fields).lookup j).getD .null)).sum_nat
      have hself : (((k, v) :: rest : Fields).lookup k).getD .null = v := by simp
      have hrest := htail _ (hks.erase k) hks.not_mem_erase
      rw [List.map_cons, List.sum_cons, hself] at hsum
      rw [hsum]
      omega
    · have hrest := htail ks hks hk
      omega

include hnull in
/-- Assigning to a key exchanges the weight under it. -/
theorem sum_put (fs : Fields) (key : String) (v : Value) :
    ((put fs key v).map fun f => w f.1 f.2).sum + w key ((fs.lookup key).getD .null)
      = (fs.map fun f => w f.1 f.2).sum + w key v := by
  induction fs with
  | nil => simp [put, hnull]
  | cons f rest ih =>
    obtain ⟨k, u⟩ := f
    rw [put]
    by_cases hk : k = key
    · subst hk
      simp only [if_true, List.map_cons, List.sum_cons, List.lookup_cons, beq_self_eq_true, Option.getD_some]
      omega
    · have hne : (key == k) = false := by simpa using fun h => hk h.symm
      simp only [if_neg hk, List.map_cons, List.sum_cons, List.lookup_cons, hne]
      omega

end Fields

namespace Value

/-- Lookups of different keys find different fields. -/
theorem count_lookups_le (m : Nat) (fs : Fields) (ks : List String) (hks : ks.Nodup) :
    (marksItems (ks.map fun k => (fs.lookup k).getD .null)).count m ≤ (marksFields fs).count m := by
  have hle := Fields.sum_lookups_le (fun _ v => v.marks.count m) (fun _ => rfl) fs ks hks
  rw [marksItems, marksFields, List.count_flatMap, List.count_flatMap, List.map_map]
  exact hle

/-- Different fields of a value are different places in it. -/
theorem count_ats_le (m : Nat) (v : Value) (ks : List String) (hks : ks.Nodup) :
    (marksItems (ks.map v.at)).count m ≤ v.marks.count m := by
  cases v with
  | object n fs =>
    rw [marks_object, List.count_cons]
    exact Nat.le_trans (count_lookups_le m fs ks hks) (Nat.le_add_right _ _)
  | _ => exact Nat.le_trans (count_lookups_le m [] ks hks) (Nat.zero_le _)

theorem count_at_le (m : Nat) (v : Value) (key : String) : (v.at key).marks.count m ≤ v.marks.count m := by
  have h := count_ats_le m v [key] (by simp)
  simpa using h

theorem count_two_at_le (m : Nat) (v : Value) {j k : String} (h : j ≠ k) :
    (v.at j).marks.count m + (v.at k).marks.count m ≤ v.marks.count m := by
  have h := count_ats_le m v [j, k] (by simp [h])
  simpa using h

end Value

/-! ## The parts of a load -/

/-- The values that a load hands over. -/
def Load.parts : Load → List Value
  | whole id source => [id, source]
  | exports properties source => (properties.flatMap fun p => [p.at "value", p.at "key"]) ++ [source]
  | one id property source => [id, property, source]

namespace Require

open Value

/-- A call has one argument, a literal. -/
theorem arguments_of_call {v : Value} (h : isCall v = true) :
    ∃ m s, v.at "arguments" = .list m [s] ∧ s.isNode = true ∧ moduleOf v = s := by
  have hargs : isOneSource (v.at "arguments") = true := by
    simp only [isCall, Bool.and_eq_true] at h
    exact h.2.2
  cases ha : v.at "arguments" with
  | list m xs =>
    rw [ha] at hargs
    cases xs with
    | nil => exact absurd hargs Bool.false_ne_true
    | cons s rest =>
      cases rest with
      | nil =>
        have hlit : s.isA .literal = true := by
          simp only [isOneSource, isTextLiteral, Bool.and_eq_true] at hargs
          exact hargs.1
        exact ⟨m, s, rfl, isNode_of_isA hlit, by rw [moduleOf, ha, firstOf]⟩
      | cons _ _ => exact absurd hargs Bool.false_ne_true
  | _ => rw [ha] at hargs; exact absurd hargs Bool.false_ne_true

theorem isA_of_isCall {v : Value} (h : isCall v = true) : v.isA .callExpression = true := by
  simp only [isCall, Bool.and_eq_true] at h
  exact h.1

/-- The module of a call is within the call. -/
theorem within_moduleOf {v : Value} (h : isCall v = true) : (moduleOf v).Within v := by
  obtain ⟨m, s, hargs, hs, hmod⟩ := arguments_of_call h
  have hat : (v.at "arguments").Within v := within_at (isA_of_isCall h) (by decide) _ (by decide)
  rw [hargs] at hat
  rw [hmod]
  exact (within_item List.mem_cons_self hs).trans hat

theorem count_moduleOf_le (k : Nat) {v : Value} (h : isCall v = true) :
    (moduleOf v).marks.count k ≤ v.marks.count k := by
  obtain ⟨m, s, hargs, _, hmod⟩ := arguments_of_call h
  have hat := count_at_le k v "arguments"
  rw [hargs, marks_list, List.count_cons, marksItems_cons, List.count_append] at hat
  rw [hmod]
  omega

/-- The fields of a property of a flat pattern. -/
theorem within_property {p : Value} (h : simpleProperty.holds p = true) :
    p.isNode = true ∧ (p.at "value").Within p ∧ (p.at "key").Within p := by
  rw [simpleProperty_holds, Bool.and_eq_true] at h
  exact ⟨isNode_of_isA h.1, within_at h.1 (by decide) _ (by decide), within_at h.1 (by decide) _ (by decide)⟩

/-- What the declarator of a load is made of. -/
theorem load?_cases {d : Value} {l : Load} (h : load? d = some l) :
    d.isA .variableDeclarator = true ∧
      ((isCall (d.at "init") = true ∧ l = .whole (d.at "id") (moduleOf (d.at "init"))) ∨
        (isCall (d.at "init") = true ∧ (d.at "id").isA .objectPattern = true ∧
          ∃ m ps, (d.at "id").at "properties" = .list m ps ∧ ps.all simpleProperty.holds = true ∧
            l = .exports ps (moduleOf (d.at "init"))) ∨
        ((d.at "init").isA .memberExpression = true ∧ isCall ((d.at "init").at "object") = true ∧
          l = .one (d.at "id") ((d.at "init").at "property") (moduleOf ((d.at "init").at "object")))) := by
  unfold load? at h
  by_cases hp : isPlain d = true
  · obtain ⟨hd, ht, hc⟩ : d.isA .variableDeclarator = true ∧ isTarget (d.at "id") = true ∧
        isCall (d.at "init") = true := by simpa [isPlain] using hp
    rw [if_pos hp] at h
    refine ⟨hd, ?_⟩
    by_cases ho : (d.at "id").isA .objectPattern = true
    · obtain ⟨m, ps, hps, hall⟩ := properties_of_target ht ho
      rw [if_pos ho, at_eq hps] at h
      exact .inr (.inl ⟨hc, ho, m, ps, at_eq hps, hall, (Option.some.inj h).symm⟩)
    · rw [if_neg ho] at h
      exact .inl ⟨hc, (Option.some.inj h).symm⟩
  · rw [if_neg hp] at h
    by_cases hm : isMember d = true
    · obtain ⟨hd, _, ha⟩ : d.isA .variableDeclarator = true ∧ (d.at "id").isA .identifier = true ∧
          isAccess (d.at "init") = true := by simpa [isMember] using hm
      obtain ⟨hi, _, hc, _⟩ : (d.at "init").isA .memberExpression = true ∧
          ((d.at "init").at "computed").equal (.bool false) = true ∧ isCall ((d.at "init").at "object") = true ∧
          ((d.at "init").at "property").isA .identifier = true := by simpa [isAccess] using ha
      rw [if_pos hm] at h
      exact ⟨hd, .inr (.inr ⟨hi, hc, (Option.some.inj h).symm⟩)⟩
    · rw [if_neg hm] at h
      exact absurd h (by simp)

/-- **What a load hands over is within its declarator.** -/
theorem within_of_load {d : Value} {l : Load} (h : load? d = some l) : ∀ w ∈ l.parts, w.Within d := by
  obtain ⟨hd, hcases⟩ := load?_cases h
  have hid : (d.at "id").Within d := within_at hd (by decide) _ (by decide)
  have hinit : (d.at "init").Within d := within_at hd (by decide) _ (by decide)
  intro w hw
  rcases hcases with ⟨hc, rfl⟩ | ⟨hc, ho, m, ps, hps, hall, rfl⟩ | ⟨hi, hc, rfl⟩
  · have hw' : w = d.at "id" ∨ w = moduleOf (d.at "init") := by simpa [Load.parts] using hw
    rcases hw' with rfl | rfl
    · exact hid
    · exact (within_moduleOf hc).trans hinit
  · rcases List.mem_append.mp hw with hw | hw
    · obtain ⟨p, hp, hw⟩ := List.mem_flatMap.mp hw
      have hprops : ((d.at "id").at "properties").Within (d.at "id") := within_at ho (by decide) _ (by decide)
      rw [hps] at hprops
      obtain ⟨hn, hvalue, hkey⟩ := within_property (List.all_eq_true.mp hall p hp)
      have hpd : p.Within d := (within_item hp hn).trans (hprops.trans hid)
      have hw' : w = p.at "value" ∨ w = p.at "key" := by simpa using hw
      rcases hw' with rfl | rfl
      · exact hvalue.trans hpd
      · exact hkey.trans hpd
    · rw [List.mem_singleton.mp hw]
      exact (within_moduleOf hc).trans hinit
  · have hw' : w = d.at "id" ∨ w = (d.at "init").at "property" ∨ w = moduleOf ((d.at "init").at "object") := by
      simpa [Load.parts] using hw
    rcases hw' with rfl | rfl | rfl
    · exact hid
    · exact (within_at hi (by decide) _ (by decide)).trans hinit
    · exact (within_moduleOf hc).trans ((within_at hi (by decide) _ (by decide)).trans hinit)

/-- **What a load hands over stands in different places of its declarator.** -/
theorem count_parts_le (k : Nat) {d : Value} {l : Load} (h : load? d = some l) :
    (marksItems l.parts).count k ≤ d.marks.count k := by
  obtain ⟨hd, hcases⟩ := load?_cases h
  have hsides := count_two_at_le k d (j := "id") (k := "init") (by decide)
  rcases hcases with ⟨hc, rfl⟩ | ⟨hc, ho, m, ps, hps, hall, rfl⟩ | ⟨hi, hc, rfl⟩
  · have hmod := count_moduleOf_le k hc
    simp only [Load.parts, marksItems_cons, marksItems_nil, List.count_append, List.count_nil]
    omega
  · have hmod := count_moduleOf_le k hc
    have hprops := count_at_le k (d.at "id") "properties"
    rw [hps, marks_list, List.count_cons] at hprops
    have hsum : (marksItems (ps.flatMap fun p => [p.at "value", p.at "key"])).count k
        ≤ (marksItems ps).count k := by
      clear hps hall hprops h
      induction ps with
      | nil => exact Nat.le_refl _
      | cons p rest ih =>
        have hp := count_two_at_le k p (j := "value") (k := "key") (by decide)
        simp only [List.flatMap_cons, List.cons_append, List.nil_append, marksItems_cons, List.count_append]
        omega
    simp only [Load.parts, marksItems_append, marksItems_cons, marksItems_nil, List.count_append, List.count_nil]
    omega
  · have hmod := count_moduleOf_le k hc
    have hinit := count_two_at_le k (d.at "init") (j := "property") (k := "object") (by decide)
    simp only [Load.parts, marksItems_cons, marksItems_nil, List.count_append, List.count_nil]
    omega

end Require
end EsmLift
