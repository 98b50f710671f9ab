import EsmLift.Proofs.Agreement

/-!
# `Proofs.Subsumption` — a plain value as a description

A plain value is also a description, and then one object is read in two ways. Where only objects are around it, it is
open: it asks for the fields it lists and lets others pass. Inside a list or a tuple it is a part of a literal and
closed: it is compared by deep equality, and other fields are a difference.

Both readings are one condition on paths of keys. Every path that leads somewhere in the description must lead somewhere
in the value, to an object if it leads to an object and to an equal value if it leads to anything else. A path of keys
never enters a list, so the two ways do not mix. From this the relation "the description `u` matches `v`" is seen to be
a preorder that contains deep equality.

## Contents

* `Value.Describes`: the relation; `Value.describes_object`, `Value.describes_other`: one step of a match;
* `Value.Meets`, `Value.describes_iff_follow`: the whole match, as a condition on paths;
* `Value.equal_follow`: equal values have equal parts at the same paths;
* `Value.describes_preorder`.
-/

namespace EsmLift

/-! ## Patterns of plain values -/

namespace Pattern

theorem ofValue_object (m : Nat) (fs : Fields) :
    ofValue (.object m fs) = .fields (fs.map fun f => (f.1, ofValue f.2)) := by
  have hfields : ofPlainFields fs = fs.map fun f => (f.1, ofValue f.2) := by
    induction fs with
    | nil => rfl
    | cons f rest ih => exact congrArg ((f.1, ofValue f.2) :: ·) ih
  rw [ofValue, hfields]

theorem ofValue_other {v : Value} (h : v.isObject = false) : ofValue v = .literal v := by
  cases v with
  | object => cases h
  | _ => rfl

/-- The pattern of a plain value binds nothing, so it passes the checks. -/
theorem built_ofValue (v : Value) : (ofValue v).Built := by
  induction v using Value.induction with
  | leaf v h =>
    rw [ofValue_other (by cases v <;> first | rfl | cases h)]
    exact .literal v
  | list m xs _ => exact .literal _
  | tuple xs _ => exact .literal _
  | object m fs ih =>
    have hnames : (ofValue (.object m fs)).names = [] := names_ofValue _
    rw [ofValue_object] at hnames ⊢
    rw [names] at hnames
    refine built_fields.mpr ⟨?_, hnames ▸ .nil⟩
    intro s hs
    obtain ⟨f, hf, rfl⟩ := List.mem_map.mp hs
    exact ih f hf

end Pattern

namespace Value

/-! ## One step of a match -/

/-- `u`, taken as a description, matches `v`. -/
def Describes (u v : Value) : Prop :=
  ∃ p captures, (Description.plain u).compile = .ok p ∧ p.run v = .ok (some captures)

variable {u v w : Value}

/-- A match succeeds on the values of the shape. -/
theorem describes_iff : Describes u v ↔ (Pattern.ofValue u).Satisfies v := by
  obtain ⟨outcome, hrun, hiff, _⟩ := (Pattern.built_ofValue u).exact v
  rw [← hiff]
  constructor
  · rintro ⟨p, captures, hp, hmatch⟩
    cases hp
    cases hrun.symm.trans hmatch
    rfl
  · intro h
    obtain ⟨captures, rfl⟩ := Option.isSome_iff_exists.mp h
    exact ⟨_, captures, rfl, hrun⟩

/-- A match never ends in a fault, and it binds nothing. -/
theorem compile_run_plain (u v : Value) :
    ∃ p, (Description.plain u).compile = .ok p ∧ (p.run v = .ok none ∨ p.run v = .ok (some [])) := by
  obtain ⟨outcome, hrun, _, hfound⟩ := (Pattern.built_ofValue u).exact v
  refine ⟨_, rfl, ?_⟩
  cases outcome with
  | none => exact .inl hrun
  | some captures =>
    have hnames : captures.map Prod.fst = [] := by
      rw [(hfound captures rfl).names, Pattern.places_names, Pattern.names_ofValue]
    rw [List.map_eq_nil_iff.mp hnames] at hrun
    exact .inr hrun

/-- An object is open: it asks only for the fields it lists. -/
theorem describes_object {m : Nat} {fs : Fields} : Describes (object m fs) v ↔
    v.isObject = true ∧ ∀ f ∈ fs, ∃ w, v.get? f.1 = some w ∧ Describes f.2 w := by
  rw [describes_iff, Pattern.ofValue_object, Pattern.Satisfies, Pattern.satisfiesAll_iff, List.forall_mem_map]
  simp only [describes_iff]

/-- Anything else is closed: it asks for what is equal to it. -/
theorem describes_other (hu : u.isObject = false) : Describes u v ↔ v.equal u = true := by
  rw [describes_iff, Pattern.ofValue_other hu, Pattern.Satisfies]

/-! ## The whole match -/

/-- What a value must be at a place where a description has `x`: an object if `x` is one, else equal to it. -/
def Meets (y x : Value) : Prop := if x.isObject then y.isObject = true else y.equal x = true

theorem meets_other {x y : Value} (h : x.isObject = false) : y.Meets x ↔ y.equal x = true := by
  rw [Meets, h, if_neg Bool.false_ne_true]

/-- What a description asks at its root. -/
theorem Describes.meets (h : Describes u v) : v.Meets u := by
  cases u with
  | object m fs => exact (describes_object.mp h).1
  | _ => exact (describes_other rfl).mp h

/-- What a description asks one key further down. -/
theorem Describes.get? (h : Describes u v) {key : String} {x : Value} (hx : u.get? key = some x) :
    ∃ y, v.get? key = some y ∧ Describes x y := by
  cases u with
  | object m fs => exact (describes_object.mp h).2 _ (Fields.mem_of_lookup hx)
  | _ => cases hx

/-- **A description matches what meets it along every path of its keys.** -/
theorem describes_iff_follow (hu : u.isKeyed = true) : Describes u v ↔
    ∀ path x, u.follow path = some x → ∃ y, v.follow path = some y ∧ y.Meets x := by
  constructor
  · intro h path x hx
    induction path generalizing u v with
    | nil =>
      cases hx
      exact ⟨v, rfl, h.meets⟩
    | cons key path ih =>
      obtain ⟨u', hu', hx'⟩ := Option.bind_eq_some_iff.mp hx
      obtain ⟨v', hv', h'⟩ := h.get? hu'
      obtain ⟨y, hy, hmeets⟩ := ih (isKeyed_part (s := .field key) hu hu') h' hx'
      refine ⟨y, ?_, hmeets⟩
      rw [follow, hv']
      exact hy
  · intro h
    obtain ⟨y, hy, hroot⟩ := h [] u rfl
    cases hy
    induction u using Value.induction_parts generalizing v with
    | step u ih =>
      cases u with
      | object m fs =>
        refine describes_object.mpr ⟨hroot, fun f hf => ?_⟩
        have hf' : (object m fs).get? f.1 = some f.2 := Fields.lookup_of_mem (isKeyed_object.mp hu).1 hf
        -- every path below the field is one below the object
        have hbelow (path : List String) (x : Value) (hx : f.2.follow path = some x) :
            ∃ w y, v.get? f.1 = some w ∧ w.follow path = some y ∧ y.Meets x := by
          have hlong : (object m fs).follow (f.1 :: path) = some x := by
            rw [follow, hf']
            exact hx
          obtain ⟨y, hy, hmeets⟩ := h (f.1 :: path) x hlong
          obtain ⟨w, hw, hy'⟩ := Option.bind_eq_some_iff.mp hy
          exact ⟨w, y, hw, hy', hmeets⟩
        obtain ⟨w, y, hw, hy, hmeets⟩ := hbelow [] f.2 rfl
        cases hy
        refine ⟨w, hw, ih (.field f.1) f.2 hf' ((isKeyed_object.mp hu).2 f hf) (fun path x hx => ?_) hmeets⟩
        obtain ⟨w', y, hw', hy, hmeets⟩ := hbelow path x hx
        cases hw.symm.trans hw'
        exact ⟨y, hy, hmeets⟩
      | _ => exact (describes_other rfl).mpr hroot

/-! ## The laws -/

theorem isKeyed_follow {path : List String} {x : Value} (hv : v.isKeyed = true) (h : v.follow path = some x) :
    x.isKeyed = true := by
  induction path generalizing v with
  | nil => cases h; exact hv
  | cons key path ih =>
    obtain ⟨w, hw, hx⟩ := Option.bind_eq_some_iff.mp h
    exact ih (isKeyed_part (s := .field key) hv hw) hx

/-- Equal values have equal parts at the same paths. -/
theorem equal_follow {path : List String} {x : Value} (hv : v.isKeyed = true) (h : v.equal u = true)
    (hx : u.follow path = some x) : ∃ y, v.follow path = some y ∧ y.equal x = true := by
  induction path generalizing u v with
  | nil =>
    cases hx
    exact ⟨v, rfl, h⟩
  | cons key path ih =>
    obtain ⟨u', hu', hx'⟩ := Option.bind_eq_some_iff.mp hx
    obtain ⟨hface, hparts⟩ := (equal_iff_parts hv).mp h
    have hsome : (v.part? (.field key)).isSome = true := by
      rw [part?_isSome, hface, ← part?_isSome, Option.isSome_iff_exists]
      exact ⟨u', hu'⟩
    obtain ⟨v', hv'⟩ := Option.isSome_iff_exists.mp hsome
    obtain ⟨y, hy, hequal⟩ := ih (isKeyed_part hv hv') (hparts (.field key) v' u' hv' hu') hx'
    refine ⟨y, ?_, hequal⟩
    rw [follow]
    exact Option.bind_eq_some_iff.mpr ⟨v', hv', hy⟩

/-- What is equal to an object is one, and to anything else is none. -/
theorem isObject_of_equal {x y : Value} (h : y.equal x = true) : y.isObject = x.isObject := by
  cases y with
  | object m fs => cases x with
    | object n gs => rfl
    | _ => cases h
  | _ => cases x with
    | object n gs => cases h
    | _ => rfl

theorem meets_of_equal {x y : Value} (h : y.equal x = true) : y.Meets x := by
  cases hx : x.isObject with
  | true =>
    rw [Meets, if_pos hx, isObject_of_equal h]
    exact hx
  | false => exact (meets_other hx).mpr h

/-- Demands add up. -/
theorem Meets.trans {x y z : PlainValue} (h : y.1.Meets x.1) (h' : z.1.Meets y.1) : z.1.Meets x.1 := by
  cases hx : x.1.isObject with
  | true =>
    rw [Meets, if_pos hx] at h ⊢
    rwa [Meets, if_pos h] at h'
  | false =>
    rw [meets_other hx] at h ⊢
    have hy : y.1.isObject = false := by rw [isObject_of_equal h, hx]
    exact equal_equiv.trans ((meets_other hy).mp h') h

/-- **Descriptions are ordered by what they ask.** Every value matches its own description; a description that matches
`v` matches whatever the description `v` matches; and a description matches everything that is equal to it. A match asks
for what meets the description along every path of its keys. It never ends in a fault, and binds nothing. -/
theorem describes_preorder :
    (∀ v : PlainValue, Describes v.1 v.1) ∧
    (∀ u v w : PlainValue, Describes u.1 v.1 → Describes v.1 w.1 → Describes u.1 w.1) ∧
    (∀ u v : PlainValue, v.1.equal u.1 = true → Describes u.1 v.1) ∧
    (∀ u v : PlainValue, Describes u.1 v.1 ↔
      ∀ path x, u.1.follow path = some x → ∃ y, v.1.follow path = some y ∧ y.Meets x) ∧
    (∀ u v, ∃ p, (Description.plain u).compile = .ok p ∧ (p.run v = .ok none ∨ p.run v = .ok (some []))) := by
  have hequal (u v : PlainValue) (h : v.1.equal u.1 = true) : Describes u.1 v.1 := by
    refine (describes_iff_follow u.2).mpr fun path x hx => ?_
    obtain ⟨y, hy, hxy⟩ := equal_follow v.2 h hx
    exact ⟨y, hy, meets_of_equal hxy⟩
  refine ⟨fun v => hequal v v (equal_equiv.refl v), ?_, hequal, fun u v => describes_iff_follow u.2, compile_run_plain⟩
  intro u v w h h'
  refine (describes_iff_follow u.2).mpr fun path x hx => ?_
  obtain ⟨y, hy, hmeets⟩ := (describes_iff_follow u.2).mp h path x hx
  obtain ⟨z, hz, hmeets'⟩ := (describes_iff_follow v.2).mp h' path y hy
  exact ⟨z, hz, Meets.trans (x := ⟨x, isKeyed_follow u.2 hx⟩) (y := ⟨y, isKeyed_follow v.2 hy⟩)
    (z := ⟨z, isKeyed_follow w.2 hz⟩) hmeets hmeets'⟩

/-- `{"a": {"b": [{"x": 1}]}}` -/
def Sample.narrow : PlainValue :=
  ⟨.new [("a", .new [("b", .newList [.new [("x", .int 1)]])])], by decide⟩

/-- The same with one more field in the open object. -/
def Sample.wider : PlainValue :=
  ⟨.new [("a", .new [("c", .null), ("b", .newList [.new [("x", .int 1)]])])], by decide⟩

/-- The same with one more field at the root. -/
def Sample.widest : PlainValue :=
  ⟨.new [("d", .text "t"), ("a", .new [("b", .newList [.new [("x", .int 1)]]), ("c", .null)])], by decide⟩

theorem describes_preorder_sample : Describes Sample.narrow.1 Sample.wider.1 ∧
    Describes Sample.wider.1 Sample.widest.1 ∧ Describes Sample.narrow.1 Sample.widest.1 ∧
    ¬Sample.widest.1.equal Sample.narrow.1 = true := by
  have hnarrow : Describes Sample.narrow.1 Sample.wider.1 := ⟨_, [], rfl, rfl⟩
  have hwider : Describes Sample.wider.1 Sample.widest.1 := ⟨_, [], rfl, rfl⟩
  exact ⟨hnarrow, hwider, describes_preorder.2.1 _ _ _ hnarrow hwider, by decide⟩

end Value
end EsmLift
