import EsmLift.Proofs.Reserve

/-!
# `Proofs.Gauge` — weights, and what a split does to them

A gauge gives a weight to the values in a tree, by the place where they stand. It counts what is below a node field by
field, and what is in a list item by item. Splitting a statement moves its parts to other places, each of them to one
place, and drops some of them. So the pieces together weigh no more than the statement, however the weights are chosen;
but the kind goes to each of the plain pieces.

## Contents

* `Gauge`, `Gauge.below`: weights, and the weight of what is below a node;
* `Gauge.two_at_le`: different fields are different places;
* `Gauge.toImport_le`, `Gauge.statement_le`: the statement of a declarator;
* `Gauge.copyComments_le`, `Gauge.becomes_le`: the same with the comments of the statement that was split;
* `Statement.plains`, `Gauge.split_le`: all pieces together.
-/

namespace EsmLift

open Value

/-- Weights for values. -/
structure Gauge where
  /-- The weight of a value in a field of a node that is no program. -/
  slot : Value → Nat
  /-- The weight of a value in a list of such a node. -/
  item : Value → Nat
  /-- The weight of a value in a field of metadata, or in a list there. -/
  note : Value → Nat
  /-- The weight of a node by itself. -/
  base : Value → Nat
  slot_leaf : ∀ v, v.isCompound = false → slot v = 0
  slot_list : ∀ m xs, slot (.list m xs) = (xs.map item).sum
  slot_node : ∀ v, v.isNode = true → slot v = item v
  item_node : ∀ m fs, (Value.object m fs).isNode = true → (Value.object m fs).isA .program = false →
    item (.object m fs) = base (.object m fs) +
      (fs.map fun f => if Syntax.metadataKeys.contains f.1 then note f.2 else slot f.2).sum
  note_leaf : ∀ v, v.isCompound = false → note v = 0
  note_list : ∀ m xs, note (.list m xs) = (xs.map note).sum
  note_items : ∀ v xs, v.items = .ok xs → (xs.map note).sum ≤ note v
  base_specifier : ∀ localName imported s v, Syntax.IsSpecifier localName imported s → v.isNode = true →
    base s ≤ base v

/-- The number of declarators of a statement that load nothing. -/
def Statement.plains (e : Value) : Nat :=
  (Require.listed (e.at "declarations")).countP fun d => (Require.load? d).isNone

/-- Faithful functions keep that number. -/
theorem Statement.plains_faithful {f : Value → Value} (hf : Faithful f) {e e' : Value}
    (h : e'.at "declarations" = f (e.at "declarations")) : plains e' = plains e := by
  unfold plains
  rw [h, Require.listed_faithful hf, List.countP_map]
  refine List.countP_congr fun d _ => ?_
  rw [Function.comp_apply, Require.load?_faithful hf, Option.isNone_map]

namespace Gauge

variable (g : Gauge)

/-- The weight of a field. -/
def field (key : String) (v : Value) : Nat := if Syntax.metadataKeys.contains key then g.note v else g.slot v

/-- The weight of what is below a value. -/
def below : Value → Nat
  | .object _ fs => (fs.map fun f => g.field f.1 f.2).sum
  | _ => 0

/-- The weight of the comments of a node. -/
def notes (v : Value) : Nat := (Syntax.commentKeys.map fun k => g.note (v.at k)).sum

theorem field_leaf (key : String) {v : Value} (h : v.isCompound = false) : g.field key v = 0 := by
  unfold field
  split
  · exact g.note_leaf v h
  · exact g.slot_leaf v h

theorem field_slot {key : String} (h : Syntax.metadataKeys.contains key = false) (v : Value) :
    g.field key v = g.slot v := by
  rw [field, h, if_neg Bool.false_ne_true]

theorem field_note {key : String} (h : Syntax.metadataKeys.contains key = true) (v : Value) :
    g.field key v = g.note v := by
  rw [field, if_pos h]

/-- A node of a type that is not that of programs. -/
theorem item_eq {v : Value} {t : NodeType} (hv : v.isA t = true) (ht : t ≠ .program) :
    g.item v = g.base v + g.below v := by
  cases v with
  | object m fs => exact g.item_node m fs (isNode_of_isA hv) (isA_unique hv ht)
  | _ => cases hv

theorem below_le_slot {v : Value} {t : NodeType} (hv : v.isA t = true) (ht : t ≠ .program) :
    g.base v + g.below v = g.slot v := by
  rw [g.slot_node v (isNode_of_isA hv), g.item_eq hv ht]

/-! ## Different fields -/

/-- The values under different keys are different fields. -/
theorem ats_le (v : Value) (ks : List String) (hks : ks.Nodup) :
    (ks.map fun k => g.field k (v.at k)).sum ≤ g.below v := by
  have hle (fs : Fields) := Fields.sum_lookups_le g.field (fun k => g.field_leaf k rfl) fs ks hks
  cases v with
  | object m fs => exact hle fs
  | _ => exact hle []

/-- Two fields that are no metadata. -/
theorem two_at_le (v : Value) {j k : String} (hne : j ≠ k) (hj : Syntax.metadataKeys.contains j = false)
    (hk : Syntax.metadataKeys.contains k = false) : g.slot (v.at j) + g.slot (v.at k) ≤ g.below v := by
  have hle := g.ats_le v [j, k] (by simp [hne])
  rw [List.map_cons, List.map_singleton, List.sum_cons, List.sum_singleton, g.field_slot hj, g.field_slot hk] at hle
  exact hle

/-- One field that is no metadata. -/
theorem at_le (v : Value) {k : String} (hk : Syntax.metadataKeys.contains k = false) :
    g.slot (v.at k) ≤ g.below v := by
  have hle := g.ats_le v [k] (by simp)
  rw [List.map_singleton, List.sum_singleton, g.field_slot hk] at hle
  exact hle

/-! ## The statement of a declarator -/

theorem moduleOf_le {v : Value} (h : Require.isCall v = true) : g.slot (Require.moduleOf v) ≤ g.below v := by
  obtain ⟨m, s, hargs, hs, hmod⟩ := Require.arguments_of_call h
  have hat := g.at_le v (k := "arguments") (by decide)
  rw [hargs, g.slot_list, List.map_singleton, List.sum_singleton] at hat
  rw [hmod, g.slot_node s hs]
  exact hat

/-- A specifier and its two names. -/
theorem specifier_le {localName imported s : Value} (h : Syntax.IsSpecifier localName imported s) :
    g.item s ≤ g.base s + (g.slot localName + g.slot imported) := by
  have htype (t : NodeType) : g.field "type" t.value = 0 := g.field_leaf _ rfl
  rcases h with rfl | rfl
  · rw [g.item_eq (t := .importDefaultSpecifier) rfl (by decide)]
    show g.base _ + (g.field "type" _ + (g.slot localName + 0)) ≤ _
    rw [htype]
    omega
  · rw [g.item_eq (t := .importSpecifier) rfl (by decide)]
    show g.base _ + (g.field "type" _ + (g.slot localName + (g.slot imported + 0))) ≤ _
    rw [htype]
    omega

/-- One specifier for each property, and each weighs no more than its property. -/
theorem specifiers_le {ps ss : List Value} (hps : ps.all Require.simpleProperty.holds = true)
    (h : List.Forall₂ (fun p s => Require.specifier (p.at "value") (p.at "key") = .ok s) ps ss) :
    (ss.map g.item).sum ≤ (ps.map g.item).sum := by
  induction h with
  | nil => exact Nat.le_refl _
  | @cons p s ps ss hs _ ih =>
    obtain ⟨hp, hrest⟩ := Bool.and_eq_true_iff.mp (List.all_cons ▸ hps)
    rw [Require.simpleProperty_holds, Bool.and_eq_true] at hp
    have hspec := Require.isSpecifier_of_ok hs
    have htwo := g.two_at_le p (j := "value") (k := "key") (by decide) (by decide) (by decide)
    have hbase := g.base_specifier _ _ _ p hspec (isNode_of_isA hp.1)
    have hitem := g.item_eq hp.1 (by decide)
    have hle := g.specifier_le hspec
    have hlater := ih hrest
    rw [List.map_cons, List.map_cons, List.sum_cons, List.sum_cons]
    omega

/-- What is below the import of a declarator weighs no more than the declarator. -/
theorem toImport_le {d n : Value} {l : Load} (hl : Require.load? d = some l) (h : l.toImport = .ok n) :
    g.below n ≤ g.below d := by
  obtain ⟨hd, hcases⟩ := Require.load?_cases hl
  have hsides := g.two_at_le d (j := "id") (k := "init") (by decide) (by decide) (by decide)
  have himport (ss : List Value) (source : Value) : g.below (Syntax.importDeclaration ss source)
      = (ss.map g.item).sum + g.slot source := by
    have htype : g.field "type" NodeType.importDeclaration.value = 0 := g.field_leaf _ rfl
    show g.field "type" _ + (g.slot (.list 0 ss) + (g.slot source + 0)) = _
    rw [htype, g.slot_list]
    omega
  rcases hcases with ⟨hc, rfl⟩ | ⟨hc, ho, m, ps, hps, hall, rfl⟩ | ⟨hi, hc, rfl⟩
  · have hspec : Syntax.IsSpecifier (d.at "id") .null (Syntax.importDefaultSpecifier (d.at "id")) := .inl rfl
    have hmod := g.moduleOf_le hc
    have hinit := g.below_le_slot (Require.isA_of_isCall hc) (by decide)
    have hbase := g.base_specifier _ _ _ _ hspec (isNode_of_isA (Require.isA_of_isCall hc))
    have hle := g.specifier_le hspec
    have hnull : g.slot .null = 0 := g.slot_leaf _ rfl
    cases h
    rw [himport, List.map_singleton, List.sum_singleton]
    omega
  · have hmod := g.moduleOf_le hc
    have hinit := g.below_le_slot (Require.isA_of_isCall hc) (by decide)
    have hid := g.below_le_slot ho (by decide)
    have hprops := g.at_le (d.at "id") (k := "properties") (by decide)
    obtain ⟨ss, hss, rfl⟩ := map_ok h
    have hle := g.specifiers_le hall (Require.propertySpecifiers_ok hss)
    have hsum := ((Require.defaultsFirst_perm ss).map g.item).sum_nat
    rw [hps, g.slot_list] at hprops
    rw [himport, hsum]
    omega
  · have hmod := g.moduleOf_le hc
    have hinit := g.below_le_slot hi (by decide)
    have hobject := g.below_le_slot (Require.isA_of_isCall hc) (by decide)
    have hinner := g.two_at_le (d.at "init") (j := "property") (k := "object") (by decide) (by decide) (by decide)
    obtain ⟨s, hs, rfl⟩ := map_ok h
    have hspec := Require.isSpecifier_of_ok hs
    have hbase := g.base_specifier _ _ _ _ hspec (isNode_of_isA hi)
    have hle := g.specifier_le hspec
    rw [himport, List.map_singleton, List.sum_singleton]
    omega

/-- What is below the statement of a declarator weighs no more than the declarator, and the kind if it is plain. -/
theorem statement_le {kind d n : Value} (h : Require.statement kind d = .ok n) :
    g.below n ≤ (if (Require.load? d).isNone then g.slot kind else 0) + g.item d := by
  rw [Require.statement_eq] at h
  cases hl : Require.load? d with
  | none =>
    rw [hl] at h
    cases h
    have htype : g.field "type" NodeType.variableDeclaration.value = 0 := g.field_leaf _ rfl
    show g.field "type" _ + (g.slot kind + (g.slot (.list 0 [d]) + 0)) ≤ g.slot kind + g.item d
    rw [htype, g.slot_list, List.map_singleton, List.sum_singleton]
    omega
  | some l =>
    rw [hl] at h
    have hle := g.toImport_le hl h
    have hitem := g.item_eq (Require.load?_cases hl).1 (by decide)
    show g.below n ≤ 0 + g.item d
    omega

/-! ## Comments -/

/-- Comments that are copied under one key. -/
theorem copyKey_le {e s t : Value} {key : String} (hs : s.isObject = true)
    (hk : Syntax.metadataKeys.contains key = true) (h : Syntax.copyKey e s key = .ok t) :
    t.isObject = true ∧ g.below t ≤ g.below s + g.note (e.at key) := by
  cases s with
  | object m fs =>
    rcases Syntax.copyKey_ok h with rfl | ⟨copied, own, hcopied, hown, rfl⟩
    · exact ⟨rfl, Nat.le_add_right _ _⟩
    · have hnew := g.note_items _ _ hcopied
      have hold : (own.map g.note).sum ≤ g.note ((fs.lookup key).getD .null) := by
        cases hl : fs.lookup key with
        | none =>
          rw [hl] at hown
          cases hown
          exact Nat.zero_le _
        | some w =>
          rw [hl] at hown
          exact g.note_items w own hown
      have hput := Fields.sum_put g.field (fun k => g.field_leaf k rfl) fs key (.list 0 (copied ++ own))
      rw [g.field_note hk, g.field_note hk, g.note_list, List.map_append, List.sum_append] at hput
      refine ⟨rfl, ?_⟩
      show ((Fields.put fs key _).map _).sum ≤ (fs.map _).sum + _
      omega
  | _ => cases hs

/-- The comments of a statement add their own weight to what is below the statement that they are copied to. -/
theorem copyComments_le {e s t : Value} (hs : s.isObject = true) (h : Syntax.copyComments e s = (t, none)) :
    g.below t ≤ g.below s + g.notes e := by
  have hall (keys : List String) (hkeys : ∀ key ∈ keys, Syntax.metadataKeys.contains key = true) {s : Value}
      (hs : s.isObject = true) (h : Syntax.copyKeys e s keys = (t, none)) :
      g.below t ≤ g.below s + (keys.map fun k => g.note (e.at k)).sum := by
    induction keys generalizing s with
    | nil =>
      cases h
      exact Nat.le_refl _
    | cons key rest ih =>
      obtain ⟨hkey, hrest⟩ := List.forall_mem_cons.mp hkeys
      rw [Syntax.copyKeys] at h
      cases hc : Syntax.copyKey e s key with
      | error fault => rw [hc] at h; cases h
      | ok s' =>
        rw [hc] at h
        obtain ⟨hs', hle⟩ := g.copyKey_le hs hkey hc
        have hlater := ih hrest hs' h
        rw [List.map_cons, List.sum_cons]
        omega
  exact hall Syntax.commentKeys (by decide) hs h

/-- What a declarator becomes. -/
theorem becomes_le {e kind d n : Value} (h : Statement.Becomes e kind d n) :
    g.below n ≤ (if (Require.load? d).isNone then g.slot kind else 0) + g.item d + g.notes e := by
  obtain ⟨s, hs, rfl | hcopied⟩ := h
  · exact Nat.le_trans (g.statement_le hs) (Nat.le_add_right _ _)
  · obtain ⟨m, fs, rfl⟩ := Require.statement_object hs
    have hle := g.statement_le hs
    have hcomments := g.copyComments_le rfl hcopied
    omega

/-! ## All pieces -/

/-- The statements of declarators, before comments are copied. -/
theorem statements_le {kind : Value} {ds ns : List Value}
    (h : List.Forall₂ (fun d n => Require.statement kind d = .ok n) ds ns) :
    (ns.map g.below).sum ≤ ds.countP (fun d => (Require.load? d).isNone) * g.slot kind + (ds.map g.item).sum := by
  induction h with
  | nil => exact Nat.zero_le _
  | @cons d n ds ns hn _ ih =>
    have hle := g.statement_le hn
    rw [List.map_cons, List.map_cons, List.sum_cons, List.sum_cons, List.countP_cons, Nat.add_mul]
    split at hle
    · rename_i hnone
      rw [if_pos hnone, Nat.one_mul]
      omega
    · rename_i hsome
      rw [if_neg hsome, Nat.zero_mul]
      omega

/-- **A split raises no weight**, but for the kind: the pieces weigh no more than the statement, and the kind once more
for each plain piece after the first one. -/
theorem split_le {keepComments : Bool} {e : Value} {r : Replacement} (h : Statement.split keepComments e = .ok r)
    (hlist : ∀ ds, (e.at "declarations").items = .ok ds →
      Require.listed (e.at "declarations") = ds ∧ (ds.map g.item).sum ≤ g.slot (e.at "declarations")) :
    (r.nodes.map g.below).sum ≤ g.below e + (Statement.plains e - 1) * g.slot (e.at "kind") := by
  obtain ⟨kind, hkind, h⟩ := bind_ok h
  obtain ⟨declarations, hdecl, h⟩ := bind_ok h
  obtain ⟨ds, hds, h⟩ := bind_ok h
  obtain ⟨ns, hns, h⟩ := bind_ok h
  have hkind := at_eq (Require.get?_of_require hkind)
  have hdecl := at_eq (Require.get?_of_require hdecl)
  -- kind, declarations and the three comment fields are five places of the statement
  have hfive : g.slot kind + (g.slot declarations + g.notes e) ≤ g.below e := by
    have hle := g.ats_le e ("kind" :: "declarations" :: Syntax.commentKeys) (by decide)
    rw [List.map_cons, List.map_cons, List.sum_cons, List.sum_cons, g.field_slot (by decide), g.field_slot (by decide),
      hkind, hdecl] at hle
    exact hle
  have hstatements := g.statements_le (Statement.pieces_ok hns)
  have hnodes : (r.nodes.map g.below).sum ≤ (ns.map g.below).sum + g.notes e := by
    cases keepComments with
    | false =>
      cases h
      exact Nat.le_add_right _ _
    | true =>
      obtain ⟨nodes, hnodes, h⟩ := bind_ok (x := Statement.commented e ns) h
      cases h
      cases ns with
      | nil =>
        cases hnodes
        exact Nat.zero_le _
      | cons s rest =>
        rw [Statement.commented] at hnodes
        rcases hcopy : Syntax.copyComments e s with ⟨n, _ | fault⟩
        · rw [hcopy] at hnodes
          cases hnodes
          obtain ⟨d, _, hd⟩ := exists_left_of_forall₂ (Statement.pieces_ok hns) List.mem_cons_self
          obtain ⟨m, fs, rfl⟩ := Require.statement_object hd
          have hle := g.copyComments_le rfl hcopy
          simp only [List.map_cons, List.sum_cons]
          omega
        · rw [hcopy] at hnodes
          cases hnodes
  rw [hdecl] at hlist
  obtain ⟨hlisted, hitems⟩ := hlist ds hds
  have hplains : Statement.plains e = ds.countP fun d => (Require.load? d).isNone := by
    rw [Statement.plains, hdecl, hlisted]
  rw [← hplains] at hstatements
  -- the first plain piece takes the place of the statement
  have hkinds : Statement.plains e * g.slot kind ≤ (Statement.plains e - 1) * g.slot kind + g.slot kind := by
    rw [← Nat.succ_mul]
    exact Nat.mul_le_mul_right _ (by omega)
  rw [hkind]
  omega

end Gauge

end EsmLift
