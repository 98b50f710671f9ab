import EsmLift.Proofs.Expansion
import Mathlib.Algebra.Ring.Nat

/-!
# `Proofs.Reserve` — how much fuel a tree asks for

The walk spends one unit of fuel on each step down and on each field or item it passes. So the fuel for an object is
the longest way down, where a list costs as much as it has items. A candidate in a list costs more than its place:
the statements it is split into have to be passed as well. `Value.reserve` adds this up from the tree that is given.

The measure is chosen so that lifting never raises it (`Lift.reserve_lifted`). That is what the kind of a split
declaration asks for: it is walked through once for each plain piece, and after the first time it is lifted.

## Contents

* `Value.toll`, `Value.reserve`, `reserve_erase`;
* `Value.toll_add_reserve_le`: the reserve is linear in the size;
* `Statement.split_becomes`, `Statement.reserve_split`: splitting stays within the reserve, but for a few steps;
* `Lift.reserve_lifted`: lifting stays within the reserve.
-/

namespace EsmLift

open Value

/-! ## The reserve -/

namespace Value

/-- The number of items of a list. -/
def width : Value → Nat
  | list _ xs => xs.length
  | tuple xs => xs.length
  | _ => 0

/-- The fuel for passing an item of a list. For a candidate it covers the statements that may take its place, and the
few steps that the walk through one of them can be longer than the walk through the candidate. -/
def toll (x : Value) : Nat := if Statement.loads x then (x.at "declarations").width + 10 else 1

mutual
/-- The fuel for walking through an object. -/
def reserve : Value → Nat
  | object _ fs => 2 + fs.length + reserveFields fs
  | _ => 1

/-- The fuel for the deepest field. -/
def reserveFields : List (String × Value) → Nat
  | [] => 1
  | (k, v) :: rest => max (if Syntax.metadataKeys.contains k then 1 else reserveSlot v) (reserveFields rest)

/-- The fuel for walking through the value of a field. -/
def reserveSlot : Value → Nat
  | list _ xs => 2 + (xs.map toll).sum + reserveItems xs
  | tuple xs => 2 + (xs.map toll).sum + reserveItems xs
  | object _ fs => 3 + fs.length + reserveFields fs
  | _ => 1

/-- The fuel for the deepest item. -/
def reserveItems : List Value → Nat
  | [] => 0
  | v :: rest => max (reserve v) (reserveItems rest)
end

theorem one_le_toll (x : Value) : 1 ≤ x.toll := by
  unfold toll
  split <;> omega

theorem toll_of_not_loads {x : Value} (h : Statement.loads x = false) : x.toll = 1 :=
  if_neg (by rw [h]; exact Bool.false_ne_true)

theorem reserve_of_not_object {v : Value} (h : v.isObject = false) : v.reserve = 1 := by
  cases v <;> first | rfl | cases h

theorem length_le_tolls (xs : List Value) : xs.length ≤ (xs.map toll).sum := by
  induction xs with
  | nil => exact Nat.le_refl 0
  | cons x rest ih =>
    have hx := one_le_toll x
    rw [List.length_cons, List.map_cons, List.sum_cons]
    omega

theorem reserveSlot_object {v : Value} (h : v.isObject = true) : reserveSlot v = 1 + v.reserve := by
  cases v with
  | object m fs => rw [reserveSlot, reserve]; omega
  | _ => cases h

theorem one_le_reserveFields (fs : Fields) : 1 ≤ reserveFields fs := by
  induction fs with
  | nil => exact Nat.le_refl 1
  | cons f rest ih => rw [reserveFields]; omega

theorem one_le_reserveSlot (v : Value) : 1 ≤ reserveSlot v := by
  cases v with
  | list | tuple | object => rw [reserveSlot]; omega
  | _ => exact Nat.le_refl 1

theorem one_le_reserve (v : Value) : 1 ≤ v.reserve := by
  cases v with
  | object => rw [reserve]; omega
  | _ => exact Nat.le_refl 1

theorem reserve_le_items {x : Value} {xs : List Value} (h : x ∈ xs) : x.reserve ≤ reserveItems xs := by
  induction xs with
  | nil => exact absurd h List.not_mem_nil
  | cons y rest ih =>
    rw [reserveItems]
    rcases List.mem_cons.mp h with rfl | h
    · exact Nat.le_max_left _ _
    · exact Nat.le_trans (ih h) (Nat.le_max_right _ _)

theorem reserveItems_le {xs : List Value} {n : Nat} (h : ∀ x ∈ xs, x.reserve ≤ n) : reserveItems xs ≤ n := by
  induction xs with
  | nil => exact Nat.zero_le n
  | cons x rest ih =>
    rw [reserveItems]
    exact Nat.max_le.mpr ⟨h x List.mem_cons_self, ih fun y hy => h y (List.mem_cons_of_mem _ hy)⟩

theorem reserveSlot_le_fields {f : String × Value} {fs : Fields} (h : f ∈ fs)
    (hk : Syntax.metadataKeys.contains f.1 = false) : reserveSlot f.2 ≤ reserveFields fs := by
  induction fs with
  | nil => exact absurd h List.not_mem_nil
  | cons g rest ih =>
    obtain ⟨k, v⟩ := g
    rw [reserveFields]
    rcases List.mem_cons.mp h with rfl | h
    · rw [if_neg (by rw [hk]; exact Bool.false_ne_true)]
      exact Nat.le_max_left _ _
    · exact Nat.le_trans (ih h) (Nat.le_max_right _ _)

theorem reserveFields_le {fs : Fields} {n : Nat} (hn : 1 ≤ n)
    (h : ∀ f ∈ fs, Syntax.metadataKeys.contains f.1 = false → reserveSlot f.2 ≤ n) : reserveFields fs ≤ n := by
  induction fs with
  | nil => exact hn
  | cons f rest ih =>
    obtain ⟨k, v⟩ := f
    obtain ⟨hf, hrest⟩ := List.forall_mem_cons.mp h
    rw [reserveFields]
    refine Nat.max_le.mpr ⟨?_, ih hrest⟩
    split
    · exact hn
    · rename_i hk
      exact hf (Bool.eq_false_iff.mpr hk)

/-- A field of a node needs less fuel than the node. -/
theorem reserveSlot_at {v : Value} (h : v.isNode = true) {key : String}
    (hk : Syntax.metadataKeys.contains key = false) : reserveSlot (v.at key) + 3 ≤ v.reserve := by
  cases v with
  | object m fs =>
    have hlen : 1 ≤ fs.length := by
      cases fs with
      | nil => cases h
      | cons f rest => rw [List.length_cons]; omega
    have hdeep : reserveSlot ((object m fs).at key) ≤ reserveFields fs := by
      rw [at_object]
      cases hl : fs.lookup key with
      | none => exact one_le_reserveFields fs
      | some w => exact reserveSlot_le_fields (Fields.mem_of_lookup hl) hk
    rw [reserve]
    omega
  | _ => cases h

/-- An item needs no more fuel than all items. -/
theorem reserve_item {x : Value} {xs : List Value} (h : x ∈ xs) :
    x.toll + x.reserve ≤ (xs.map toll).sum + reserveItems xs := by
  have hdeep := reserve_le_items h
  have htoll : x.toll ≤ (xs.map toll).sum := by
    clear hdeep
    induction xs with
    | nil => exact absurd h List.not_mem_nil
    | cons y rest ih =>
      rw [List.map_cons, List.sum_cons]
      rcases List.mem_cons.mp h with rfl | h
      · exact Nat.le_add_right _ _
      · exact Nat.le_trans (ih h) (Nat.le_add_left _ _)
  omega

/-! ## The reserve and the size -/

theorem width_le_size (v : Value) : v.width ≤ v.size := by
  have hitems (xs : List Value) : xs.length ≤ sizeItems xs := by
    induction xs with
    | nil => exact Nat.le_refl 0
    | cons x rest ih =>
      have hx := size_pos x
      rw [List.length_cons, sizeItems]
      omega
  cases v with
  | list m xs => have h := hitems xs; rw [width, size]; omega
  | tuple xs => have h := hitems xs; rw [width, size]; omega
  | _ => exact Nat.zero_le _

theorem width_lookup_le (fs : Fields) (key : String) : ((fs.lookup key).getD .null).width ≤ sizeFields fs := by
  induction fs with
  | nil => exact Nat.zero_le _
  | cons f rest ih =>
    obtain ⟨k, v⟩ := f
    have hv := width_le_size v
    rw [List.lookup_cons, sizeFields]
    split
    · rw [Option.getD_some]; omega
    · omega

theorem length_le_sizeFields (fs : Fields) : fs.length ≤ sizeFields fs := by
  induction fs with
  | nil => exact Nat.le_refl 0
  | cons f rest ih => rw [List.length_cons, sizeFields]; omega

theorem toll_add_reserve_le_of_not_object {v : Value} (h : v.isObject = false) :
    v.toll + v.reserve + 1 ≤ 16 * v.size := by
  have hload : Statement.loads v = false := by rw [Statement.loads, Statement.isCandidate_of_not_object h]
  have hpos := size_pos v
  rw [toll_of_not_loads hload, reserve_of_not_object h]
  omega

mutual
/-- The fuel for an item and for walking through it is linear in its size. -/
theorem toll_add_reserve_le : (v : Value) → v.toll + v.reserve + 1 ≤ 16 * v.size
  | .null | .bool _ | .int _ | .double _ | .text _ | .list .. | .tuple _ => toll_add_reserve_le_of_not_object rfl
  | .object m fs => by
    have hfields := reserveFields_le_size "declarations" fs
    have htoll : (object m fs).toll ≤ ((fs.lookup "declarations").getD .null).width + 10 := by
      unfold toll
      split
      · exact Nat.le_refl _
      · omega
    rw [reserve, size]
    omega

/-- The fuel for fields, also if the items of one of them are counted a second time. -/
theorem reserveFields_le_size (key : String) : (fs : List (String × Value)) →
    ((fs.lookup key).getD .null).width + fs.length + reserveFields fs ≤ 16 * sizeFields fs + 1
  | [] => Nat.le_refl 1
  | (k, v) :: rest => by
    have hslot := reserveSlot_le_size v
    have hrest := reserveFields_le_size key rest
    have hwidth := width_lookup_le rest key
    have hlength := length_le_sizeFields rest
    have hself := width_le_size v
    have hmeta : (if Syntax.metadataKeys.contains k then 1 else reserveSlot v) ≤ max 1 (reserveSlot v) := by
      split <;> omega
    rw [List.lookup_cons, List.length_cons, reserveFields, sizeFields]
    split
    · rw [Option.getD_some]
      omega
    · omega

/-- The fuel for the value of a field, also if its items are counted a second time. -/
theorem reserveSlot_le_size : (v : Value) → v.width + reserveSlot v ≤ 16 * v.size
  | .null | .bool _ | .int _ | .double _ | .text _ => by simp [width, reserveSlot, size]
  | .list m xs => by
    have hitems := reserveItems_le_size xs
    rw [width, reserveSlot, size]
    omega
  | .tuple xs => by
    have hitems := reserveItems_le_size xs
    rw [width, reserveSlot, size]
    omega
  | .object m fs => by
    have hfields := reserveFields_le_size "" fs
    have hwidth : (object m fs).width = 0 := rfl
    rw [hwidth, reserveSlot, size]
    omega

/-- The fuel for items, also if they are counted a second time. -/
theorem reserveItems_le_size : (xs : List Value) →
    xs.length + (xs.map toll).sum + reserveItems xs ≤ 16 * sizeItems xs
  | [] => Nat.le_refl 0
  | v :: rest => by
    have hv := toll_add_reserve_le v
    have hrest := reserveItems_le_size rest
    rw [List.length_cons, List.map_cons, List.sum_cons, reserveItems, sizeItems]
    omega
end

/-! ## Marks do not count -/

theorem width_erase (v : Value) : v.erase.width = v.width := by
  cases v with
  | list m xs => rw [erase_list]; exact List.length_map _
  | tuple xs => rw [erase_tuple]; exact List.length_map _
  | object m fs => rw [erase_object]; rfl
  | _ => rfl

theorem toll_erase (x : Value) : x.erase.toll = x.toll := by
  have hwidth : (x.erase.at "declarations").width = (x.at "declarations").width := by
    unfold Value.at
    rw [get?_erase]
    cases x.get? "declarations" with
    | none => rfl
    | some w => exact width_erase w
  unfold toll
  rw [Statement.loads_erase, hwidth]

theorem tolls_erase (xs : List Value) : ((eraseItems xs).map toll).sum = (xs.map toll).sum := by
  rw [eraseItems_eq_map, List.map_map]
  exact congrArg List.sum (List.map_congr_left fun x _ => toll_erase x)

mutual
theorem reserve_erase : (v : Value) → v.erase.reserve = v.reserve
  | .null | .bool _ | .int _ | .double _ | .text _ | .list .. | .tuple _ => rfl
  | .object m fs => by
    rw [erase, reserve, reserve, reserveFields_erase fs, eraseFields_eq_map, List.length_map]

theorem reserveFields_erase : (fs : List (String × Value)) → reserveFields (eraseFields fs) = reserveFields fs
  | [] => rfl
  | (k, v) :: rest => by
    rw [eraseFields, reserveFields, reserveFields, reserveFields_erase rest, reserveSlot_erase v]

theorem reserveSlot_erase : (v : Value) → reserveSlot v.erase = reserveSlot v
  | .null | .bool _ | .int _ | .double _ | .text _ => rfl
  | .list m xs => by rw [erase, reserveSlot, reserveSlot, tolls_erase, reserveItems_erase xs]
  | .tuple xs => by rw [erase, reserveSlot, reserveSlot, tolls_erase, reserveItems_erase xs]
  | .object m fs => by
    rw [erase, reserveSlot, reserveSlot, reserveFields_erase fs, eraseFields_eq_map, List.length_map]

theorem reserveItems_erase : (xs : List Value) → reserveItems (eraseItems xs) = reserveItems xs
  | [] => rfl
  | v :: rest => by rw [eraseItems, reserveItems, reserveItems, reserve_erase v, reserveItems_erase rest]
end

theorem reserve_stamp (next : Nat) (v : Value) : (v.stamp next).1.reserve = v.reserve := by
  rw [← reserve_erase, erase_stamp, reserve_erase]

end Value

/-! ## Statements that are split -/

namespace Statement

/-- One statement for each declarator. -/
theorem pieces_ok {kind : Value} {ds ns : List Value} (h : pieces kind ds = .ok ns) :
    List.Forall₂ (fun d n => Require.statement kind d = .ok n) ds ns := by
  induction ds generalizing ns with
  | nil =>
    cases h
    exact .nil
  | cons d rest ih =>
    obtain ⟨n, hn, h⟩ := bind_ok h
    obtain ⟨ns', hns, h⟩ := bind_ok h
    cases h
    exact .cons hn (ih hns)

/-- What a declarator of the statement `e` becomes: the statement it stands for, or this with comments of `e`. -/
def Becomes (e kind d n : Value) : Prop :=
  ∃ s, Require.statement kind d = .ok s ∧ (n = s ∨ Syntax.copyComments e s = (n, none))

/-- Comments go to the first statement, if there is one. -/
theorem commented_becomes {e kind : Value} {ds ns nodes : List Value}
    (h : List.Forall₂ (fun d n => Require.statement kind d = .ok n) ds ns) (hc : commented e ns = .ok nodes) :
    List.Forall₂ (Becomes e kind) ds nodes := by
  cases h with
  | nil =>
    cases hc
    exact .nil
  | @cons d s ds rest hs hrest =>
    rw [commented] at hc
    rcases hcopy : Syntax.copyComments e s with ⟨n, _ | fault⟩
    · rw [hcopy] at hc
      cases hc
      exact .cons ⟨s, hs, .inr hcopy⟩ (hrest.imp fun _ s hs => ⟨s, hs, .inl rfl⟩)
    · rw [hcopy] at hc
      cases hc

/-- **A split, declarator by declarator.** -/
theorem split_becomes {keepComments : Bool} {e : Value} {r : Replacement} (h : split keepComments e = .ok r) :
    ∃ kind declarations ds, e.get? "kind" = some kind ∧ e.get? "declarations" = some declarations ∧
      declarations.items = .ok ds ∧ List.Forall₂ (Becomes e kind) ds r.nodes := by
  obtain ⟨kind, hkind, h⟩ := bind_ok h
  obtain ⟨declarations, hdecl, h⟩ := bind_ok h
  obtain ⟨ds, hds, h⟩ := bind_ok h
  obtain ⟨ns, hns, h⟩ := bind_ok h
  have hall := pieces_ok hns
  refine ⟨kind, declarations, ds, Require.get?_of_require hkind, Require.get?_of_require hdecl, hds, ?_⟩
  cases keepComments with
  | false =>
    cases h
    exact hall.imp fun _ s hs => ⟨s, hs, .inl rfl⟩
  | true =>
    obtain ⟨nodes, hnodes, h⟩ := bind_ok (x := commented e ns) h
    cases h
    exact commented_becomes hall hnodes

end Statement

namespace Value

theorem reserveFields_put (fs : Fields) {key : String} (v : Value) (hk : Syntax.metadataKeys.contains key = true) :
    reserveFields (Fields.put fs key v) = reserveFields fs ∧ (Fields.put fs key v).length ≤ fs.length + 1 := by
  induction fs with
  | nil =>
    refine ⟨?_, Nat.le_refl _⟩
    show reserveFields [(key, v)] = 1
    rw [reserveFields, if_pos hk, reserveFields]
    rfl
  | cons f rest ih =>
    obtain ⟨k, w⟩ := f
    rw [Fields.put]
    by_cases h : k = key
    · rw [if_pos h, reserveFields, reserveFields, if_pos (h ▸ hk), if_pos (h ▸ hk)]
      exact ⟨rfl, Nat.le_succ _⟩
    · rw [if_neg h, reserveFields, reserveFields, ih.1, List.length_cons, List.length_cons]
      exact ⟨rfl, by have hlen := ih.2; omega⟩

/-- Each list of comments that is copied costs one step. -/
theorem reserve_copyKeys {e t : Value} {m : Nat} {fs : Fields} (keys : List String)
    (hkeys : ∀ key ∈ keys, Syntax.metadataKeys.contains key = true)
    (h : Syntax.copyKeys e (.object m fs) keys = (t, none)) : t.reserve ≤ (object m fs).reserve + keys.length := by
  induction keys generalizing fs with
  | nil =>
    cases h
    exact Nat.le_add_right _ _
  | cons key rest ih =>
    obtain ⟨hkey, hrest⟩ := List.forall_mem_cons.mp hkeys
    rw [Syntax.copyKeys] at h
    rw [List.length_cons]
    cases hc : Syntax.copyKey e (.object m fs) key with
    | error fault => rw [hc] at h; cases h
    | ok t' =>
      rw [hc] at h
      rcases Syntax.copyKey_ok hc with rfl | ⟨copied, own, _, _, rfl⟩
      · have hle := ih hrest h
        omega
      · have hle := ih hrest h
        obtain ⟨hput, hlen⟩ := reserveFields_put fs (.list 0 (copied ++ own)) hkey
        rw [reserve, hput] at hle
        rw [reserve]
        omega

/-- A node in a field needs less fuel than the node around it. -/
theorem reserve_at {v : Value} (h : v.isNode = true) {key : String} (hk : Syntax.metadataKeys.contains key = false)
    (hn : (v.at key).isNode = true) : (v.at key).reserve + 4 ≤ v.reserve := by
  have hle := reserveSlot_at h hk
  rw [reserveSlot_object (isObject_of_isNode hn)] at hle
  omega

end Value

namespace Require

/-- The literal that names the module needs less fuel than the call around it. -/
theorem reserve_moduleOf {v : Value} (h : isCall v = true) : reserveSlot (moduleOf v) + 5 ≤ v.reserve := by
  obtain ⟨m, s, hargs, hs, hmod⟩ := arguments_of_call h
  have hat : reserveSlot (v.at "arguments") + 3 ≤ v.reserve :=
    reserveSlot_at (isNode_of_isA (isA_of_isCall h)) (by decide)
  have hitem := reserve_item (List.mem_singleton.mpr (rfl : s = s))
  have htoll := one_le_toll s
  rw [hargs, reserveSlot] at hat
  rw [hmod, reserveSlot_object (isObject_of_isNode hs)]
  omega

end Require

namespace Syntax

theorem reserve_importDeclaration (ss : List Value) (source : Value) :
    (importDeclaration ss source).reserve
      = 5 + max 1 (max (2 + (ss.map toll).sum + reserveItems ss) (max (reserveSlot source) 1)) := rfl

theorem IsSpecifier.reserve_le {localName imported s : Value} (h : IsSpecifier localName imported s) :
    s.toll = 1 ∧ s.reserve ≤ 6 + max (reserveSlot localName) (reserveSlot imported) := by
  rcases h with rfl | rfl
  · have heq : (importDefaultSpecifier localName).reserve = 4 + max 1 (max (reserveSlot localName) 1) := rfl
    exact ⟨toll_of_not_loads rfl, by omega⟩
  · have heq : (importSpecifier localName imported).reserve
        = 5 + max 1 (max (reserveSlot localName) (max (reserveSlot imported) 1)) := rfl
    exact ⟨toll_of_not_loads rfl, by omega⟩

end Syntax

namespace Require

/-- One specifier for each property, and each fits into its property. -/
theorem reserve_specifiers {m : Nat} {ps ss : List Value} (hps : ps.all simpleProperty.holds = true)
    (h : List.Forall₂ (fun p s => specifier (p.at "value") (p.at "key") = .ok s) ps ss) :
    (ss.map toll).sum + reserveItems ss ≤ reserveSlot (.list m ps) + 1 := by
  have htolls : (ss.map toll).sum = ss.length := by
    have hone (s : Value) (hs : s ∈ ss) : s.toll = 1 := by
      obtain ⟨p, _, hp⟩ := exists_left_of_forall₂ h hs
      exact (isSpecifier_of_ok hp).reserve_le.1
    rw [List.map_congr_left hone, List.map_const', List.sum_replicate_nat, Nat.mul_one]
  have hdeep : reserveItems ss ≤ reserveItems ps + 3 := by
    refine reserveItems_le fun s hs => ?_
    obtain ⟨p, hp, hps'⟩ := exists_left_of_forall₂ h hs
    have hnode := (within_property (List.all_eq_true.mp hps p hp)).1
    have hvalue : reserveSlot (p.at "value") + 3 ≤ p.reserve := reserveSlot_at hnode (by decide)
    have hkey : reserveSlot (p.at "key") + 3 ≤ p.reserve := reserveSlot_at hnode (by decide)
    have hle := (isSpecifier_of_ok hps').reserve_le.2
    have hpmax := reserve_le_items hp
    omega
  have hlength := h.length_eq
  have hle := length_le_tolls ps
  rw [htolls, reserveSlot]
  omega

/-- The import of a declarator fits into it, but for a few steps. -/
theorem reserve_toImport {d n : Value} {l : Load} (hl : load? d = some l) (h : l.toImport = .ok n) :
    n.reserve ≤ d.reserve + 11 := by
  obtain ⟨hd, hcases⟩ := load?_cases hl
  have hnode := isNode_of_isA hd
  have hid : reserveSlot (d.at "id") + 3 ≤ d.reserve := reserveSlot_at hnode (by decide)
  -- the import with one specifier
  have hsingle {localName imported s source : Value} (hs : Syntax.IsSpecifier localName imported s)
      (hlocal : reserveSlot localName + 3 ≤ d.reserve) (himported : reserveSlot imported + 3 ≤ d.reserve)
      (hsource : reserveSlot source ≤ d.reserve) :
      (Syntax.importDeclaration [s] source).reserve ≤ d.reserve + 11 := by
    obtain ⟨htoll, hle⟩ := hs.reserve_le
    rw [Syntax.reserve_importDeclaration, List.map_singleton, List.sum_singleton, htoll, reserveItems, reserveItems]
    omega
  rcases hcases with ⟨hc, rfl⟩ | ⟨hc, ho, m, ps, hps, hall, rfl⟩ | ⟨hi, hc, rfl⟩
  · have hmod := reserve_moduleOf hc
    have hinit : (d.at "init").reserve + 4 ≤ d.reserve :=
      reserve_at hnode (by decide) (isNode_of_isA (isA_of_isCall hc))
    cases h
    exact hsingle (.inl rfl) hid hid (by omega)
  · have hmod := reserve_moduleOf hc
    have hinit : (d.at "init").reserve + 4 ≤ d.reserve :=
      reserve_at hnode (by decide) (isNode_of_isA (isA_of_isCall hc))
    have hpattern : (d.at "id").reserve + 4 ≤ d.reserve := reserve_at hnode (by decide) (isNode_of_isA ho)
    have hprops : reserveSlot ((d.at "id").at "properties") + 3 ≤ (d.at "id").reserve :=
      reserveSlot_at (isNode_of_isA ho) (by decide)
    rw [hps] at hprops
    obtain ⟨ss, hss, rfl⟩ := map_ok h
    have hperm := defaultsFirst_perm ss
    have hle := reserve_specifiers (m := m) hall (propertySpecifiers_ok hss)
    have hsum : ((defaultsFirst ss).map toll).sum = (ss.map toll).sum := (hperm.map toll).sum_nat
    have hmax : reserveItems (defaultsFirst ss) ≤ reserveItems ss :=
      reserveItems_le fun s hs => reserve_le_items (hperm.mem_iff.mp hs)
    rw [Syntax.reserve_importDeclaration, hsum]
    omega
  · have hmod := reserve_moduleOf hc
    have hinit : (d.at "init").reserve + 4 ≤ d.reserve := reserve_at hnode (by decide) (isNode_of_isA hi)
    have hobject : ((d.at "init").at "object").reserve + 4 ≤ (d.at "init").reserve :=
      reserve_at (isNode_of_isA hi) (by decide) (isNode_of_isA (isA_of_isCall hc))
    have hproperty : reserveSlot ((d.at "init").at "property") + 3 ≤ (d.at "init").reserve :=
      reserveSlot_at (isNode_of_isA hi) (by decide)
    obtain ⟨s, hs, rfl⟩ := map_ok h
    exact hsingle (isSpecifier_of_ok hs) hid (by omega) (by omega)

theorem statement_object {kind d n : Value} (h : statement kind d = .ok n) : ∃ m fs, n = .object m fs := by
  rw [statement_eq] at h
  cases hl : load? d with
  | none =>
    rw [hl] at h
    cases h
    exact ⟨_, _, rfl⟩
  | some l =>
    rw [hl] at h
    obtain ⟨ss, source, rfl, _⟩ := Load.toImport_ok h
    exact ⟨_, _, rfl⟩

/-- The statement of a declarator fits into a statement around the declarator, but for a few steps. -/
theorem reserve_statement {kind d n : Value} (h : statement kind d = .ok n) :
    n.reserve ≤ 5 + max (reserveSlot kind) (d.toll + d.reserve + 5) := by
  have htoll := one_le_toll d
  rw [statement_eq] at h
  cases hl : load? d with
  | none =>
    rw [hl] at h
    cases h
    have heq : (Syntax.variableDeclaration kind [d]).reserve
        = 5 + max 1 (max (reserveSlot kind) (max (2 + (d.toll + 0) + max d.reserve 0) 1)) := rfl
    rw [heq]
    omega
  | some l =>
    rw [hl] at h
    have hle := reserve_toImport hl h
    omega

end Require

namespace Statement

/-- A candidate has as many pieces as declarators. -/
theorem length_split {keepComments : Bool} {e : Value} {r : Replacement} (hload : loads e = true)
    (h : split keepComments e = .ok r) : r.nodes.length = (e.at "declarations").width := by
  obtain ⟨kind, declarations, ds, _, hdecl, hds, hnodes⟩ := split_becomes h
  rw [← hnodes.length_eq, at_eq hdecl]
  rcases declarations_of_loads hload hdecl with ⟨m, xs, rfl⟩ | ⟨xs, rfl⟩ <;> cases hds <;> rfl

/-- **A piece of a candidate needs hardly more fuel than the candidate.** -/
theorem reserve_split {keepComments : Bool} {e n : Value} {r : Replacement} (hload : loads e = true)
    (h : split keepComments e = .ok r) (hn : n ∈ r.nodes) : n.reserve ≤ e.reserve + 8 := by
  obtain ⟨kind, declarations, ds, hkind, hdecl, hds, hnodes⟩ := split_becomes h
  have hnode := isNode_of_loads hload
  have hkindLe : reserveSlot (e.at "kind") + 3 ≤ e.reserve := reserveSlot_at hnode (by decide)
  have hdeclLe : reserveSlot (e.at "declarations") + 3 ≤ e.reserve := reserveSlot_at hnode (by decide)
  rw [at_eq hkind] at hkindLe
  rw [at_eq hdecl] at hdeclLe
  obtain ⟨d, hd, s, hs, hcopied⟩ := exists_left_of_forall₂ hnodes hn
  have hstatement : s.reserve ≤ e.reserve + 5 := by
    have hitem := reserve_item hd
    have hlist : d.toll + d.reserve + 2 ≤ reserveSlot declarations := by
      rcases declarations_of_loads hload hdecl with ⟨m, xs, rfl⟩ | ⟨xs, rfl⟩ <;> cases hds <;>
        · rw [reserveSlot]
          omega
    have hle := Require.reserve_statement hs
    omega
  rcases hcopied with rfl | hcopied
  · omega
  · obtain ⟨m, fs, rfl⟩ := Require.statement_object hs
    have hle := reserve_copyKeys Syntax.commentKeys (by decide) hcopied
    have hthree : Syntax.commentKeys.length = 3 := rfl
    omega

end Statement

/-- The pieces of a candidate are no candidates. -/
theorem Statement.loads_split {keepComments : Bool} {e n : Value} {r : Replacement}
    (h : split keepComments e = .ok r) (hn : n ∈ r.nodes) : loads n = false := by
  obtain ⟨_, kind, _, _, ps, _, _, _, hps, hnodes, _⟩ := split_ok h
  rw [hnodes] at hn
  obtain ⟨p, hp, rfl⟩ := List.mem_map.mp hn
  rw [loads, (hps p hp).quiet kind]

/-! ## Lifting -/

namespace Lift

variable (keepComments : Bool)

theorem width_liftedSlot (v : Value) : (liftedSlot keepComments false v).width = v.width := by
  cases v with
  | list m xs => rw [liftedSlot_list, flatMap_liftedItem_false]; exact List.length_map _
  | object m fs =>
    rw [liftedSlot]
    split
    · rw [lifted_object]; rfl
    · rfl
  | _ => rw [liftedSlot_other _ _ rfl (by simp)]

/-- A lifted item is passed at the same price. -/
theorem toll_lifted (v : Value) : (lifted keepComments v).toll = v.toll := by
  have hloads : Statement.loads (lifted keepComments v) = Statement.loads v := by
    rw [Statement.loads, Statement.loads, isCandidate_lifted]
  unfold toll
  rw [hloads]
  split
  · rename_i hload
    have hA := isA_unique (Statement.isA_of_loads hload) (t := .program) (by decide)
    cases v with
    | object m fs =>
      rw [lifted_object, at_object, at_object, lookup_lifted, hA]
      cases fs.lookup "declarations" with
      | none => rfl
      | some w => exact congrArg (· + 10) (width_liftedSlot keepComments w)
    | _ => cases hload
  · rfl

/-- Items that are replaced within their own reserve need no more fuel together. -/
theorem reserve_flatMap {g : Value → List Value} {xs : List Value}
    (h : ∀ x ∈ xs, ((g x).map toll).sum ≤ x.toll ∧
      ∀ y ∈ g x, ((g x).map toll).sum + y.reserve ≤ x.toll + x.reserve) :
    ((xs.flatMap g).map toll).sum ≤ (xs.map toll).sum ∧
      ((xs.flatMap g).map toll).sum + reserveItems (xs.flatMap g) ≤ (xs.map toll).sum + reserveItems xs := by
  induction xs with
  | nil => exact ⟨Nat.le_refl _, Nat.le_refl _⟩
  | cons x rest ih =>
    obtain ⟨hx, hrest⟩ := List.forall_mem_cons.mp h
    obtain ⟨htolls, hall⟩ := ih hrest
    have hfirst : ((g x).map toll).sum + reserveItems (g x) ≤ x.toll + x.reserve := by
      have hdeep : reserveItems (g x) ≤ x.toll + x.reserve - ((g x).map toll).sum := by
        refine reserveItems_le fun y hy => ?_
        have hle := hx.2 y hy
        omega
      have hle := hx.1
      omega
    have happend : reserveItems (g x ++ rest.flatMap g) ≤ max (reserveItems (g x)) (reserveItems (rest.flatMap g)) := by
      refine reserveItems_le fun y hy => ?_
      rcases List.mem_append.mp hy with hy | hy
      · exact Nat.le_trans (reserve_le_items hy) (Nat.le_max_left _ _)
      · exact Nat.le_trans (reserve_le_items hy) (Nat.le_max_right _ _)
    have htoll := hx.1
    simp only [List.flatMap_cons, List.map_append, List.sum_append, List.map_cons, List.sum_cons, reserveItems]
    omega

/-- What stands in the place of an item fits into its reserve, if lifting does not raise what is no deeper. -/
theorem reserve_liftedItem (program : Bool) (x : Value)
    (ih : ∀ n : Value, n.depth ≤ x.depth → (lifted keepComments n).reserve ≤ n.reserve) :
    ((liftedItem keepComments program x).map toll).sum ≤ x.toll ∧
      ∀ y ∈ liftedItem keepComments program x,
        ((liftedItem keepComments program x).map toll).sum + y.reserve ≤ x.toll + x.reserve := by
  have hsame {y : Value} (hitem : liftedItem keepComments program x = [y]) (htoll : y.toll = x.toll)
      (hle : y.reserve ≤ x.reserve) :
      ((liftedItem keepComments program x).map toll).sum ≤ x.toll ∧
        ∀ z ∈ liftedItem keepComments program x,
          ((liftedItem keepComments program x).map toll).sum + z.reserve ≤ x.toll + x.reserve := by
    rw [hitem, List.map_singleton, List.sum_singleton, htoll]
    refine ⟨Nat.le_refl _, fun z hz => ?_⟩
    rw [List.mem_singleton.mp hz]
    omega
  have hkeep := toll_lifted keepComments x
  cases hn : x.isNode with
  | false => exact hsame (liftedItem_other keepComments program hn) rfl (Nat.le_refl _)
  | true =>
    cases hload : program && Statement.loads x with
    | false => exact hsame (liftedItem_keep keepComments hn hload) hkeep (ih x (Nat.le_refl _))
    | true =>
      obtain ⟨rfl, hload⟩ := Bool.and_eq_true_iff.mp hload
      rw [liftedItem_replaced keepComments hn] at hsame ⊢
      cases hs : Statement.split keepComments x with
      | error fault =>
        refine hsame ?_ hkeep (ih x (Nat.le_refl _))
        rw [Statement.replaced_of_error hs, List.map_singleton]
      | ok r =>
        rw [Statement.replaced_of_split hload hs]
        -- the pieces are passed at the lowest price
        have hone (n : Value) (hn : n ∈ r.nodes) : (lifted keepComments n).toll = 1 := by
          rw [toll_lifted, toll_of_not_loads (Statement.loads_split hs hn)]
        have hsum : ((r.nodes.map (lifted keepComments)).map toll).sum = (x.at "declarations").width := by
          rw [List.map_map, List.map_congr_left (f := toll ∘ lifted keepComments) hone, List.map_const',
            List.sum_replicate_nat, Nat.mul_one, Statement.length_split hload hs]
        have htoll : x.toll = (x.at "declarations").width + 10 := if_pos hload
        rw [hsum, htoll]
        refine ⟨Nat.le_add_right _ _, fun y hy => ?_⟩
        obtain ⟨n, hn, rfl⟩ := List.mem_map.mp hy
        have hle := ih n (Statement.depth_split hload hs hn)
        have hpiece := Statement.reserve_split hload hs hn
        omega

/-- **Lifting never raises the reserve.** -/
theorem reserve_lifted (v : Value) : (lifted keepComments v).reserve ≤ v.reserve ∧
    ∀ program, reserveSlot (liftedSlot keepComments program v) ≤ reserveSlot v := by
  induction hd : v.depth using Nat.strongRecOn generalizing v with
  | ind d ih =>
    subst hd
    cases v with
    | object m fs =>
      have hself : (lifted keepComments (.object m fs)).reserve ≤ (Value.object m fs).reserve := by
        rw [lifted_object, reserve, reserve, List.length_map]
        refine Nat.add_le_add_left (reserveFields_le (one_le_reserveFields fs) fun g hg hk => ?_) _
        obtain ⟨f, hf, rfl⟩ := List.mem_map.mp hg
        dsimp only at hk ⊢
        rw [if_neg (by rw [hk]; exact Bool.false_ne_true)]
        have hdepth := depth_le_fields hf hk
        have hlt : f.2.depth < (Value.object m fs).depth := by rw [depth]; omega
        exact Nat.le_trans ((ih _ hlt f.2 rfl).2 _) (reserveSlot_le_fields hf hk)
      refine ⟨hself, fun program => ?_⟩
      rw [liftedSlot]
      split
      · have hobj : (lifted keepComments (.object m fs)).isObject = true := by rw [lifted_object]; rfl
        rw [reserveSlot_object hobj, reserveSlot_object rfl]
        omega
      · exact Nat.le_refl _
    | list m xs =>
      refine ⟨Nat.le_of_eq (by rw [lifted_of_not_object keepComments rfl]), fun program => ?_⟩
      have hitem (x : Value) (hx : x ∈ xs) := reserve_liftedItem keepComments program x fun n hn => by
        have hdepth := depth_le_items hx
        have hlt : n.depth < (Value.list m xs).depth := by rw [depth]; omega
        exact (ih _ hlt n rfl).1
      have hitems := (reserve_flatMap hitem).2
      rw [liftedSlot_list, reserveSlot, reserveSlot]
      omega
    | _ =>
      exact ⟨Nat.le_of_eq (by rw [lifted_of_not_object keepComments rfl]), fun program =>
        Nat.le_of_eq (by rw [liftedSlot_other _ _ rfl (by simp)])⟩

end Lift

end EsmLift
