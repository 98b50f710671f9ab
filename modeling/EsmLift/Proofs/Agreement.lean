import EsmLift.Proofs.Compounds
import EsmLift.Proofs.Reordering
import Mathlib.Algebra.Field.Rat
import Mathlib.Data.Finset.Dedup
import Mathlib.Data.List.Nodup
import Mathlib.Data.Rat.Cast.CharZero

/-!
# `Proofs.Agreement` — deep equality is agreement at every position

Deep equality runs down two values at once, along the items of lists and tuples and along the keys of objects. What it
decides can be said without running it. A value shows a **face** at every position that a path of steps leads to: that
it is null, a truth value, a number, a text, a list or a tuple of some length, or an object with some set of keys. Two
values are equal exactly if they show the same faces at the same positions. So equality is an equivalence, because it
is equality of what is shown, and the order of keys does not matter, because it is not shown.

Values are those in which every object has each of its keys once.

## Contents

* `Value.isKeyed`, `PlainValue`: objects without repeated keys, at any depth;
* `Value.part?`, `Value.Face`, `Value.faceAt`: positions and what is shown there;
* `Value.equal_iff_parts`: one step of the comparison; `Value.equal_iff_faceAt`: the whole of it;
* `Value.Reordered`: the same value with keys in another order, at any depth;
* `Value.equal_equivalence`.
-/

namespace EsmLift

/-! ## Keys that are not repeated -/

/-- A field is found under its key if no key is repeated. -/
theorem Fields.lookup_of_mem {fs : Fields} (h : (Fields.keys fs).Nodup) {f : String × Value} (hf : f ∈ fs) :
    fs.lookup f.1 = some f.2 := by
  induction fs with
  | nil => exact absurd hf List.not_mem_nil
  | cons g rest ih =>
    obtain ⟨hg, hrest⟩ := List.nodup_cons.mp h
    rw [List.lookup_cons]
    rcases List.mem_cons.mp hf with rfl | hf
    · rw [beq_self_eq_true]
    · have hne : (f.1 == g.1) = false := by
        rw [beq_eq_false_iff_ne]
        exact fun heq => hg (List.mem_map.mpr ⟨f, hf, heq⟩)
      rw [hne]
      exact ih hrest hf

/-- The keys are those under which something is found. -/
theorem Fields.mem_keys_iff {fs : Fields} {key : String} : key ∈ Fields.keys fs ↔ ∃ v, fs.lookup key = some v := by
  constructor
  · intro h
    obtain ⟨f, hf, rfl⟩ := List.mem_map.mp h
    exact Option.isSome_iff_exists.mp (List.lookup_isSome_iff.mpr ⟨f, hf, beq_self_eq_true _⟩)
  · rintro ⟨v, hv⟩
    exact List.mem_map.mpr ⟨_, Fields.mem_of_lookup hv, rfl⟩

namespace Value

/-- Whether no object in a value has a key twice. -/
def isKeyed (v : Value) : Bool :=
  v.compounds.all fun
    | object _ fs => decide (Fields.keys fs).Nodup
    | _ => true

theorem isKeyed_list {m : Nat} {xs : List Value} : (list m xs).isKeyed = true ↔ ∀ x ∈ xs, x.isKeyed = true := by
  unfold isKeyed
  rw [compounds_list, List.all_cons, List.all_flatMap, Bool.true_and, List.all_eq_true]

theorem isKeyed_tuple {xs : List Value} : (tuple xs).isKeyed = true ↔ ∀ x ∈ xs, x.isKeyed = true := by
  unfold isKeyed
  rw [compounds_tuple, List.all_cons, List.all_flatMap, Bool.true_and, List.all_eq_true]

theorem isKeyed_object {m : Nat} {fs : Fields} :
    (object m fs).isKeyed = true ↔ (Fields.keys fs).Nodup ∧ ∀ f ∈ fs, f.2.isKeyed = true := by
  unfold isKeyed
  rw [compounds_object, List.all_cons, List.all_flatMap, Bool.and_eq_true, decide_eq_true_iff, List.all_eq_true]

end Value

/-- A plain value: no object in it has a key twice. -/
abbrev PlainValue := { v : Value // v.isKeyed = true }

namespace Value

/-! ## Positions -/

/-- The items of a list or a tuple. -/
def row : Value → List Value
  | list _ xs => xs
  | tuple xs => xs
  | _ => []

/-- The part of a value that one step leads to. -/
def part? (v : Value) : Step → Option Value
  | .field key => v.get? key
  | .index i => v.row[i]?

/-- The value at a position. -/
def reach? (v : Value) : List Step → Option Value
  | [] => some v
  | s :: path => (v.part? s).bind fun w => w.reach? path

end Value

/-- The exact value of a double. -/
def Double.exact (d : Double) : ℚ := d.signed / unitsPerOne

namespace Value

/-- What a value shows of itself, without its parts. -/
inductive Face where
  | null
  | truth (b : Bool)
  | number (q : ℚ)
  | text (s : String)
  | list (length : Nat)
  | tuple (length : Nat)
  | object (keys : Finset String)
  deriving DecidableEq

/-- The face of a value. -/
def face : Value → Face
  | null => .null
  | bool b => .truth b
  | int i => .number i
  | double d => .number d.exact
  | text s => .text s
  | list _ xs => .list xs.length
  | tuple xs => .tuple xs.length
  | object _ fs => .object (Fields.keys fs).toFinset

/-- The face at a position, if there is one. -/
def faceAt (v : Value) (path : List Step) : Option Face := (v.reach? path).map face

theorem faceAt_cons (v : Value) (s : Step) (path : List Step) :
    v.faceAt (s :: path) = (v.part? s).bind fun w => w.faceAt path := by
  unfold faceAt
  rw [reach?, Option.map_bind]
  rfl

theorem part?_leaf {v : Value} (h : v.isCompound = false) (s : Step) : v.part? s = none := by
  cases s <;> cases v <;> first | rfl | cases h

/-- The parts of a plain value are plain. -/
theorem isKeyed_part {v w : Value} {s : Step} (hv : v.isKeyed = true) (h : v.part? s = some w) : w.isKeyed = true := by
  cases v with
  | list m xs =>
    cases s with
    | field key => cases h
    | index i => exact isKeyed_list.mp hv w (List.mem_of_getElem? h)
  | tuple xs =>
    cases s with
    | field key => cases h
    | index i => exact isKeyed_tuple.mp hv w (List.mem_of_getElem? h)
  | object m fs =>
    cases s with
    | field key => exact (isKeyed_object.mp hv).2 _ (Fields.mem_of_lookup h)
    | index i => cases h
  | _ => cases (part?_leaf rfl s).symm.trans h

/-- Induction over values: a value may use what holds of its parts. -/
theorem induction_parts {motive : Value → Prop} (step : ∀ v, (∀ s w, v.part? s = some w → motive w) → motive v)
    (v : Value) : motive v := by
  induction v using Value.induction with
  | leaf v h => exact step v fun s w hw => by rw [part?_leaf h] at hw; cases hw
  | list m xs ih =>
    refine step _ fun s w hw => ?_
    cases s with
    | field key => cases hw
    | index i => exact ih w (List.mem_of_getElem? hw)
  | tuple xs ih =>
    refine step _ fun s w hw => ?_
    cases s with
    | field key => cases hw
    | index i => exact ih w (List.mem_of_getElem? hw)
  | object m fs ih =>
    refine step _ fun s w hw => ?_
    cases s with
    | field key => exact ih _ (Fields.mem_of_lookup hw)
    | index i => cases hw

/-! ## One step of the comparison -/

theorem unitsPerOne_ne_zero : (Double.unitsPerOne : ℚ) ≠ 0 :=
  Nat.cast_ne_zero.mpr (by decide +kernel)

/-- Whole numbers and doubles are compared by their exact values. -/
theorem ofWhole_eq_signed {i : Int} {d : Double} : Double.ofWhole i = d.signed ↔ (i : ℚ) = d.exact := by
  rw [Double.exact, eq_div_iff unitsPerOne_ne_zero, ← Int.cast_natCast, ← Int.cast_mul, Int.cast_inj, Double.ofWhole]

theorem signed_eq_signed {d e : Double} : d.signed = e.signed ↔ d.exact = e.exact := by
  rw [Double.exact, Double.exact, div_left_inj' unitsPerOne_ne_zero, Int.cast_inj]

/-- A leaf is equal to what has its face. -/
theorem equal_leaf {v : Value} (h : v.isCompound = false) (w : Value) : v.equal w = true ↔ v.face = w.face := by
  cases v with
  | int i =>
    cases w with
    | int j => simp [equal, face]
    | double d => simp [equal, face, ofWhole_eq_signed]
    | _ => simp [equal, face]
  | double d =>
    cases w with
    | int i => simp only [equal, face, beq_iff_eq, Face.number.injEq]; rw [eq_comm, ofWhole_eq_signed, eq_comm]
    | double e => simp [equal, face, signed_eq_signed]
    | _ => simp [equal, face]
  | list | tuple | object => cases h
  | _ => cases w <;> simp [equal, face]

/-- Lists are equal if they are of one length and equal item by item. -/
theorem equalLists_iff {xs ys : List Value} : equalLists xs ys = true ↔
    xs.length = ys.length ∧ ∀ (i : Nat) (a b : Value), xs[i]? = some a → ys[i]? = some b → a.equal b = true := by
  induction xs generalizing ys with
  | nil => cases ys <;> simp [equalLists]
  | cons x xs ih =>
    cases ys with
    | nil => simp [equalLists]
    | cons y ys =>
      rw [equalLists, Bool.and_eq_true, ih]
      constructor
      · rintro ⟨hxy, hlength, hitems⟩
        refine ⟨congrArg (· + 1) hlength, fun i a b ha hb => ?_⟩
        cases i with
        | zero => cases ha; cases hb; exact hxy
        | succ i => exact hitems i a b ha hb
      · rintro ⟨hlength, hitems⟩
        exact ⟨hitems 0 x y rfl rfl, Nat.succ.inj hlength, fun i => hitems (i + 1)⟩

theorem equalFields_iff {fs gs : Fields} : equalFields fs gs = true ↔
    ∀ f ∈ fs, ∃ w, gs.lookup f.1 = some w ∧ f.2.equal w = true := by
  induction fs with
  | nil => simp [equalFields]
  | cons f rest ih =>
    obtain ⟨key, v⟩ := f
    rw [equalFields, Bool.and_eq_true, ih, List.forall_mem_cons]
    cases gs.lookup key <;> simp

/-- Objects are equal if they have the same keys and equal values under each key. -/
theorem equal_object {m n : Nat} {fs gs : Fields} (hfs : (Fields.keys fs).Nodup) :
    (object m fs).equal (object n gs) = true ↔ (Fields.keys fs).toFinset = (Fields.keys gs).toFinset ∧
      ∀ key a b, fs.lookup key = some a → gs.lookup key = some b → a.equal b = true := by
  have hkeys : (gs.all fun g => fs.any fun f => f.1 == g.1) = true ↔ ∀ key ∈ Fields.keys gs, key ∈ Fields.keys fs := by
    simp [Fields.keys]
  rw [equal, Bool.and_eq_true, hkeys, equalFields_iff]
  constructor
  · rintro ⟨hsub, hfields⟩
    constructor
    · refine Finset.ext fun key => ?_
      rw [List.mem_toFinset, List.mem_toFinset]
      refine ⟨fun hkey => ?_, hsub key⟩
      obtain ⟨f, hf, rfl⟩ := List.mem_map.mp hkey
      obtain ⟨w, hw, _⟩ := hfields f hf
      exact Fields.mem_keys_iff.mpr ⟨w, hw⟩
    · intro key a b ha hb
      obtain ⟨w, hw, hequal⟩ := hfields _ (Fields.mem_of_lookup ha)
      cases hb.symm.trans hw
      exact hequal
  · rintro ⟨hsame, hvalues⟩
    have hmem (key : String) : key ∈ Fields.keys fs ↔ key ∈ Fields.keys gs := by
      rw [← List.mem_toFinset, hsame, List.mem_toFinset]
    refine ⟨fun key => (hmem key).mpr, fun f hf => ?_⟩
    obtain ⟨w, hw⟩ := Fields.mem_keys_iff.mp ((hmem f.1).mp (List.mem_map_of_mem hf))
    exact ⟨w, hw, hvalues f.1 f.2 w (Fields.lookup_of_mem hfs hf) hw⟩

/-- The parts of what is no object are the items of its row. -/
theorem forall_parts_iff {v w : Value} (hv : v.isObject = false) {P : Value → Value → Prop} :
    (∀ s a b, v.part? s = some a → w.part? s = some b → P a b) ↔
      ∀ (i : Nat) (a b : Value), v.row[i]? = some a → w.row[i]? = some b → P a b := by
  refine ⟨fun h i => h (.index i), fun h s => ?_⟩
  cases s with
  | field key =>
    intro a b ha
    cases v with
    | object => cases hv
    | _ => cases ha
  | index i => exact h i

/-- **One step of the comparison.** Values are equal if they show the same face and have equal parts. -/
theorem equal_iff_parts {v w : Value} (hv : v.isKeyed = true) : v.equal w = true ↔
    v.face = w.face ∧ ∀ s a b, v.part? s = some a → w.part? s = some b → a.equal b = true := by
  cases v with
  | list m xs =>
    rw [forall_parts_iff rfl]
    cases w with
    | list n ys =>
      rw [equal, equalLists_iff, face, face, Face.list.injEq]
      exact Iff.rfl
    | _ => simp [equal, face]
  | tuple xs =>
    rw [forall_parts_iff rfl]
    cases w with
    | tuple ys =>
      rw [equal, equalLists_iff, face, face, Face.tuple.injEq]
      exact Iff.rfl
    | _ => simp [equal, face]
  | object m fs =>
    cases w with
    | object n gs =>
      rw [equal_object (isKeyed_object.mp hv).1, face, face, Face.object.injEq]
      refine and_congr_right fun _ => ⟨fun h s => ?_, fun h key => h (.field key)⟩
      cases s with
      | field key => exact h key
      | index i => exact fun a b ha => nomatch ha
    | _ => simp [equal, face]
  | _ =>
    rw [equal_leaf rfl]
    exact ⟨fun h => ⟨h, fun s a b ha => by rw [part?_leaf rfl] at ha; cases ha⟩, And.left⟩

/-! ## The whole comparison -/

/-- Whether a value with this face has a part that the step leads to. -/
def Face.has : Face → Step → Bool
  | .list n, .index i => decide (i < n)
  | .tuple n, .index i => decide (i < n)
  | .object keys, .field key => decide (key ∈ keys)
  | _, _ => false

theorem isSome_getElem? (xs : List Value) (i : Nat) : xs[i]?.isSome = decide (i < xs.length) := by
  rw [Bool.eq_iff_iff]
  simp

/-- Which steps can be taken is seen from the face. -/
theorem part?_isSome (v : Value) (s : Step) : (v.part? s).isSome = v.face.has s := by
  cases v with
  | list m xs =>
    cases s with
    | field key => rfl
    | index i => exact isSome_getElem? xs i
  | tuple xs =>
    cases s with
    | field key => rfl
    | index i => exact isSome_getElem? xs i
  | object m fs =>
    cases s with
    | field key =>
      rw [Bool.eq_iff_iff, Option.isSome_iff_exists]
      simp only [face, Face.has, decide_eq_true_eq, List.mem_toFinset, Fields.mem_keys_iff]
      rfl
    | index i => rfl
  | _ => rw [part?_leaf rfl]; cases s <;> rfl

/-- **Deep equality is agreement at every position.** -/
theorem equal_iff_faceAt {v w : Value} (hv : v.isKeyed = true) (hw : w.isKeyed = true) :
    v.equal w = true ↔ ∀ path, v.faceAt path = w.faceAt path := by
  constructor
  · intro h path
    induction path generalizing v w with
    | nil => exact congrArg some ((equal_iff_parts hv).mp h).1
    | cons s path ih =>
      obtain ⟨hface, hparts⟩ := (equal_iff_parts hv).mp h
      have hsome : (v.part? s).isSome = (w.part? s).isSome := by rw [part?_isSome, part?_isSome, hface]
      rw [faceAt_cons, faceAt_cons]
      cases ha : v.part? s with
      | none =>
        rw [ha, Option.isSome_none, eq_comm, Option.isSome_eq_false_iff, Option.isNone_iff_eq_none] at hsome
        rw [hsome]
      | some a =>
        rw [ha, Option.isSome_some, eq_comm, Option.isSome_iff_exists] at hsome
        obtain ⟨b, hb⟩ := hsome
        rw [hb]
        exact ih (isKeyed_part hv ha) (isKeyed_part hw hb) (hparts s a b ha hb)
  · induction v using induction_parts generalizing w with
    | step v ih =>
      intro h
      refine (equal_iff_parts hv).mpr ⟨Option.some.inj (h []), fun s a b ha hb => ?_⟩
      refine ih s a ha (isKeyed_part hv ha) (isKeyed_part hw hb) fun path => ?_
      have hpath := h (s :: path)
      rw [faceAt_cons, faceAt_cons, ha, hb] at hpath
      exact hpath

/-! ## The order of keys -/

/-- The second value is the first one with the fields of any objects in it permuted. -/
inductive Reordered : Value → Value → Prop
  | refl (v : Value) : Reordered v v
  /-- The fields of the value itself. -/
  | here {m : Nat} {fs gs : Fields} (h : fs.Perm gs) : Reordered (object m fs) (object m gs)
  /-- The value of one of the fields. -/
  | field {m : Nat} {before after : Fields} {key : String} {v w : Value} (h : Reordered v w) :
      Reordered (object m (before ++ (key, v) :: after)) (object m (before ++ (key, w) :: after))
  /-- One of the items of a list. -/
  | item {m : Nat} {before after : List Value} {v w : Value} (h : Reordered v w) :
      Reordered (list m (before ++ v :: after)) (list m (before ++ w :: after))
  /-- One of the items of a tuple. -/
  | component {before after : List Value} {v w : Value} (h : Reordered v w) :
      Reordered (tuple (before ++ v :: after)) (tuple (before ++ w :: after))
  | trans {u v w : Value} (h : Reordered u v) (h' : Reordered v w) : Reordered u w

namespace Reordered

variable {v w : Value}

/-- Keys that are not repeated are not repeated in another order. -/
theorem isKeyed (h : Reordered v w) (hv : v.isKeyed = true) : w.isKeyed = true := by
  induction h with
  | refl => exact hv
  | here hperm =>
    obtain ⟨hkeys, hvalues⟩ := isKeyed_object.mp hv
    exact isKeyed_object.mpr ⟨(hperm.map _).nodup hkeys, fun f hf => hvalues f (hperm.mem_iff.mpr hf)⟩
  | @field m before after key v w _ ih =>
    obtain ⟨hkeys, hvalues⟩ := isKeyed_object.mp hv
    rw [List.forall_mem_append, List.forall_mem_cons] at hvalues
    refine isKeyed_object.mpr ⟨?_, ?_⟩
    · simpa [Fields.keys] using hkeys
    · rw [List.forall_mem_append, List.forall_mem_cons]
      exact ⟨hvalues.1, ih hvalues.2.1, hvalues.2.2⟩
  | item _ ih =>
    rw [isKeyed_list, List.forall_mem_append, List.forall_mem_cons] at hv ⊢
    exact ⟨hv.1, ih hv.2.1, hv.2.2⟩
  | component _ ih =>
    rw [isKeyed_tuple, List.forall_mem_append, List.forall_mem_cons] at hv ⊢
    exact ⟨hv.1, ih hv.2.1, hv.2.2⟩
  | trans _ _ ih ih' => exact ih' (ih hv)

/-- What is shown at a position of a row of which one item was changed. -/
theorem bind_row {α : Type} {before after : List Value} {show? : Value → Option α} (h : show? v = show? w) (i : Nat) :
    (before ++ v :: after)[i]?.bind show? = (before ++ w :: after)[i]?.bind show? := by
  rcases Nat.lt_trichotomy i before.length with hlt | rfl | hgt
  · rw [List.getElem?_append_left hlt, List.getElem?_append_left hlt]
  · simpa using h
  · obtain ⟨j, rfl⟩ := Nat.exists_eq_add_of_lt hgt
    rw [List.getElem?_append_right (by omega), List.getElem?_append_right (by omega)]
    simp [Nat.add_assoc]

/-- What is shown at a position of an object of which one field was changed. -/
theorem bind_lookup {α : Type} {before after : Fields} {key : String} {show? : Value → Option α} (h : show? v = show? w)
    (k : String) : ((before ++ (key, v) :: after).lookup k).bind show? =
      ((before ++ (key, w) :: after).lookup k).bind show? := by
  rw [List.lookup_append, List.lookup_append, List.lookup_cons, List.lookup_cons]
  cases before.lookup k with
  | some a => rfl
  | none =>
    cases k == key with
    | true => exact h
    | false => rfl

/-- A value with its keys in another order shows the same faces. -/
theorem faceAt (h : Reordered v w) (hv : v.isKeyed = true) (path : List Step) : v.faceAt path = w.faceAt path := by
  induction h generalizing path with
  | refl => rfl
  | @here m fs gs hperm =>
    have hkeys := (isKeyed_object.mp hv).1
    cases path with
    | nil =>
      have hset : (Fields.keys fs).toFinset = (Fields.keys gs).toFinset := List.toFinset_eq_of_perm _ _ (hperm.map _)
      exact congrArg (fun keys => some (Face.object keys)) hset
    | cons s path =>
      rw [faceAt_cons, faceAt_cons]
      cases s with
      | field key =>
        have hlookup : fs.lookup key = gs.lookup key := Captures.lookup_perm hperm hkeys key
        exact congrArg (Option.bind · _) hlookup
      | index i => rfl
  | @field m before after key v w _ ih =>
    have hpart := (List.forall_mem_cons.mp (List.forall_mem_append.mp (isKeyed_object.mp hv).2).2).1
    cases path with
    | nil => simp [Value.faceAt, reach?, face, Fields.keys]
    | cons s path =>
      rw [faceAt_cons, faceAt_cons]
      cases s with
      | field k => exact bind_lookup (ih hpart path) k
      | index i => rfl
  | item _ ih =>
    have hpart := (List.forall_mem_cons.mp (List.forall_mem_append.mp (isKeyed_list.mp hv)).2).1
    cases path with
    | nil => simp [Value.faceAt, reach?, face]
    | cons s path =>
      rw [faceAt_cons, faceAt_cons]
      cases s with
      | field k => rfl
      | index i => exact bind_row (ih hpart path) i
  | component _ ih =>
    have hpart := (List.forall_mem_cons.mp (List.forall_mem_append.mp (isKeyed_tuple.mp hv)).2).1
    cases path with
    | nil => simp [Value.faceAt, reach?, face]
    | cons s path =>
      rw [faceAt_cons, faceAt_cons]
      cases s with
      | field k => rfl
      | index i => exact bind_row (ih hpart path) i
  | trans h _ ih ih' => exact (ih hv path).trans (ih' (h.isKeyed hv) path)

end Reordered

/-! ## The laws -/

/-- Equality of values is equality of what they show. -/
theorem equal_equiv : Equivalence fun v w : PlainValue => v.1.equal w.1 = true := by
  have hshown (v w : PlainValue) : v.1.equal w.1 = true ↔ v.1.faceAt = w.1.faceAt :=
    (equal_iff_faceAt v.2 w.2).trans funext_iff.symm
  simp only [hshown]
  exact ⟨fun _ => rfl, Eq.symm, Eq.trans⟩

/-- A truth value is equal to nothing but itself. -/
theorem bool_equal_iff {b : Bool} {v : Value} : (Value.bool b).equal v = true ↔ v = .bool b := by
  cases v with
  | bool c => rw [equal, beq_iff_eq, Value.bool.injEq, eq_comm]
  | _ => simp [equal]

theorem equal_bool_iff {b : Bool} {v : Value} : v.equal (.bool b) = true ↔ v = .bool b := by
  cases v <;> simp [equal]

/-- **Deep equality is an equivalence, and agreement at every position.** It does not see the order of keys, at any
depth; two values are equal exactly if they show the same faces at the same positions, and a truth value is equal to
nothing but itself. -/
theorem equal_equivalence :
    Equivalence (fun v w : PlainValue => v.1.equal w.1 = true) ∧
    (∀ v w : PlainValue, ∀ v' w', Reordered v.1 v' → Reordered w.1 w' → v'.equal w' = v.1.equal w.1) ∧
    (∀ v w : PlainValue, v.1.equal w.1 = true ↔ ∀ path, v.1.faceAt path = w.1.faceAt path) ∧
    (∀ b v, ((Value.bool b).equal v = true ↔ v = .bool b) ∧ (v.equal (.bool b) = true ↔ v = .bool b)) := by
  refine ⟨equal_equiv, ?_, fun v w => equal_iff_faceAt v.2 w.2, fun b v => ⟨bool_equal_iff, equal_bool_iff⟩⟩
  intro v w v' w' hv hw
  rw [Bool.eq_iff_iff, equal_iff_faceAt (hv.isKeyed v.2) (hw.isKeyed w.2), equal_iff_faceAt v.2 w.2]
  simp only [hv.faceAt v.2, hw.faceAt w.2]

/-- `{"a": 1, "b": [{"x": true, "y": "t"}]}` -/
def Sample.whole : PlainValue :=
  ⟨.new [("a", .int 1), ("b", .newList [.new [("x", .bool true), ("y", .text "t")]])], by decide⟩

/-- The same with a double for the number. -/
def Sample.real : PlainValue :=
  ⟨.new [("a", .double ⟨false, Double.unitsPerOne⟩), ("b", .newList [.new [("x", .bool true), ("y", .text "t")]])],
    by decide⟩

/-- The same with keys in another order, outside and inside. -/
def Sample.turned : Value :=
  .new [("b", .newList [.new [("y", .text "t"), ("x", .bool true)]]), ("a", .int 1)]

theorem Sample.whole_reordered : Reordered Sample.whole.1 Sample.turned := by
  have hinner : Reordered (.new [("x", .bool true), ("y", .text "t")]) (.new [("y", .text "t"), ("x", .bool true)]) :=
    .here (.swap _ _ [])
  refine .trans (@Reordered.field _ [("a", .int 1)] [] "b" _ _ (@Reordered.item _ [] [] _ _ hinner)) ?_
  exact .here (.swap _ _ [])

theorem equal_equivalence_sample :
    Sample.whole.1.equal Sample.real.1 = true ∧ Reordered Sample.whole.1 Sample.turned ∧
      Sample.real.1.equal Sample.whole.1 = true ∧
      Sample.turned.equal Sample.real.1 = Sample.whole.1.equal Sample.real.1 ∧
      ∀ path, Sample.whole.1.faceAt path = Sample.real.1.faceAt path := by
  obtain ⟨hequiv, horder, hfaces, _⟩ := equal_equivalence
  have hequal : Sample.whole.1.equal Sample.real.1 = true := by decide +kernel
  exact ⟨hequal, Sample.whole_reordered, hequiv.symm hequal, horder _ _ _ _ Sample.whole_reordered (.refl _),
    (hfaces _ _).mp hequal⟩

end Value
end EsmLift
