import EsmLift.Proofs.Uniqueness

/-!
# `Proofs.Reordering` — the order of fields does not matter

A pattern of fields looks at one field after another, stops at the first one that does not match, and puts captures
together as it goes. Still the order of its fields shows only in the order of the captures: a pattern and the same
pattern with fields permuted, here or anywhere inside, match the same values and bind the same names to the same values.

The proof does not run the two patterns side by side. The meaning of a pattern asks for all its fields, which is the
same in any order; its captures stand at the same places, listed in another order; and both patterns have their meaning
(`Built.exact`).

## Contents

* `Pattern.Permuted`: fields are permuted, at any depth;
* `Pattern.satisfiesAll_iff`, `Pattern.placesOfFields_eq`: the meaning of fields, without their order;
* `Permuted.satisfies_iff`, `Permuted.places`, `Permuted.built`: what permuting fields keeps;
* `Captures.lookup_perm`: the same captures in another order;
* `Permuted.run_agrees`.
-/

namespace EsmLift

namespace Pattern

/-- The second pattern is the first one with the fields of any of its parts permuted. -/
inductive Permuted : Pattern → Pattern → Prop
  | refl (p : Pattern) : Permuted p p
  /-- The fields of the pattern itself. -/
  | here {subs subs' : List (String × Pattern)} (h : subs.Perm subs') : Permuted (.fields subs) (.fields subs')
  /-- The pattern in one of the fields. -/
  | field {before after : List (String × Pattern)} {key : String} {p q : Pattern} (h : Permuted p q) :
      Permuted (.fields (before ++ (key, p) :: after)) (.fields (before ++ (key, q) :: after))
  /-- The pattern that is captured. -/
  | inner {name : String} {p q : Pattern} (h : Permuted p q) : Permuted (.capture name p) (.capture name q)
  | trans {p q r : Pattern} (h : Permuted p q) (h' : Permuted q r) : Permuted p r

/-! ## The meaning of fields -/

theorem satisfiesAll_iff {subs : List (String × Pattern)} {v : Value} :
    SatisfiesAll subs v ↔ ∀ s ∈ subs, ∃ w, v.get? s.1 = some w ∧ s.2.Satisfies w := by
  induction subs with
  | nil => exact ⟨fun _ _ h => absurd h List.not_mem_nil, fun _ => trivial⟩
  | cons s rest ih => rw [SatisfiesAll, ih, List.forall_mem_cons]

theorem placesOfFields_eq (subs : List (String × Pattern)) :
    placesOfFields subs = subs.flatMap fun s => s.2.places.map fun c => (c.1, s.1 :: c.2) := by
  induction subs with
  | nil => rfl
  | cons s rest ih => rw [placesOfFields, ih, List.flatMap_cons]

theorem Built.accepted {p : Pattern} (h : p.Built) : p.Accepted := by
  induction h with
  | literal expected => exact .literal expected
  | test => exact .test _
  | fields _ hp ih => exact .fields ih hp
  | capture _ hp ih => exact .capture ih hp

/-- A pattern of fields was accepted if its parts were, and if they bind different names. -/
theorem built_fields {subs : List (String × Pattern)} :
    (Pattern.fields subs).Built ↔ (∀ s ∈ subs, s.2.Built) ∧ (namesOfFields subs).Nodup := by
  constructor
  · intro h
    cases h with
    | fields hsubs hp =>
      obtain ⟨heq, hnames⟩ := ofFields_ok.mp hp
      obtain rfl := Pattern.fields.inj heq
      exact ⟨hsubs, hnames⟩
    | capture _ hp => exact nomatch (named_ok.mp hp).1
  · rintro ⟨hsubs, hnames⟩
    exact .fields hsubs (ofFields_ok.mpr ⟨rfl, hnames⟩)

theorem built_capture {name : String} {inner : Pattern} :
    (Pattern.capture name inner).Built ↔ inner.Built ∧ (name :: inner.names).Nodup := by
  constructor
  · intro h
    cases h with
    | fields _ hp => exact nomatch (ofFields_ok.mp hp).1
    | capture hinner hp =>
      obtain ⟨heq, hnames⟩ := named_ok.mp hp
      obtain ⟨rfl, rfl⟩ := Pattern.capture.inj heq
      exact ⟨hinner, hnames⟩
  · rintro ⟨hinner, hnames⟩
    exact .capture hinner (named_ok.mpr ⟨rfl, hnames⟩)

/-! ## What permuting fields keeps -/

namespace Permuted

variable {p q : Pattern}

/-- The same values satisfy both patterns. -/
theorem satisfies_iff (h : Permuted p q) (v : Value) : p.Satisfies v ↔ q.Satisfies v := by
  induction h generalizing v with
  | refl => exact Iff.rfl
  | here hperm =>
    rw [Satisfies, Satisfies, satisfiesAll_iff, satisfiesAll_iff]
    simp only [hperm.mem_iff]
  | field _ ih =>
    rw [Satisfies, Satisfies, satisfiesAll_iff, satisfiesAll_iff]
    simp only [List.forall_mem_append, List.forall_mem_cons, ih]
  | inner _ ih => exact ih v
  | trans _ _ ih ih' => exact (ih v).trans (ih' v)

/-- The captures stand at the same places. -/
theorem places (h : Permuted p q) : p.places.Perm q.places := by
  induction h with
  | refl => exact .refl _
  | here hperm =>
    rw [Pattern.places, Pattern.places, placesOfFields_eq, placesOfFields_eq]
    exact hperm.flatMap_right _
  | field _ ih =>
    rw [Pattern.places, Pattern.places, placesOfFields_eq, placesOfFields_eq, List.flatMap_append, List.flatMap_append,
      List.flatMap_cons, List.flatMap_cons]
    exact ((ih.map _).append_right _).append_left _
  | inner _ ih => exact ih.cons _
  | trans _ _ ih ih' => exact ih.trans ih'

/-- So the same names are bound. -/
theorem names (h : Permuted p q) : p.names.Perm q.names := by
  rw [← places_names, ← places_names]
  exact h.places.map _

/-- What was accepted is accepted with its fields permuted. -/
theorem built (h : Permuted p q) (hp : p.Built) : q.Built := by
  induction h with
  | refl => exact hp
  | here hperm =>
    obtain ⟨hsubs, hnames⟩ := built_fields.mp hp
    refine built_fields.mpr ⟨fun s hs => hsubs s (hperm.mem_iff.mpr hs), ?_⟩
    exact (names (.here hperm)).nodup hnames
  | field hpq ih =>
    obtain ⟨hsubs, hnames⟩ := built_fields.mp hp
    refine built_fields.mpr ⟨?_, (names (.field hpq)).nodup hnames⟩
    rw [List.forall_mem_append, List.forall_mem_cons] at hsubs ⊢
    exact ⟨hsubs.1, ih hsubs.2.1, hsubs.2.2⟩
  | inner hpq ih =>
    obtain ⟨hinner, hnames⟩ := built_capture.mp hp
    exact built_capture.mpr ⟨ih hinner, (hpq.names.cons _).nodup hnames⟩
  | trans _ _ ih ih' => exact ih' (ih hp)

end Permuted
end Pattern

/-! ## Two matches -/

/-- Captures with distinct names say the same in any order. -/
theorem Captures.lookup_perm {captures captures' : Captures} (h : captures.Perm captures')
    (hnames : (captures.map Prod.fst).Nodup) (name : String) : captures.lookup name = captures'.lookup name := by
  induction h with
  | nil => rfl
  | cons c _ ih =>
    obtain ⟨key, v⟩ := c
    rw [List.lookup_cons, List.lookup_cons, ih (List.nodup_cons.mp hnames).2]
  | swap c d rest =>
    obtain ⟨key, v⟩ := c
    obtain ⟨key', v'⟩ := d
    have hne : key' ≠ key := fun heq => (List.nodup_cons.mp hnames).1 (heq ▸ List.mem_cons_self)
    simp only [List.lookup_cons]
    by_cases hkey : name = key
    · have hkey' : (name == key') = false := by simpa [hkey] using Ne.symm hne
      rw [hkey']
    · have hother : (name == key) = false := by simpa using hkey
      rw [hother]
  | trans h _ ih ih' => rw [ih hnames, ih' ((h.map Prod.fst).nodup hnames)]

namespace Pattern

/-- What is found at places that are listed in another order. -/
theorem Found.perm {v : Value} {spots spots' : List (String × List String)} {captures captures' : Captures}
    (h : Found v spots captures) (h' : Found v spots' captures') (hspots : spots.Perm spots') :
    captures.Perm captures' := by
  have hall : (captures.map fun c => (c.1, some c.2)).Perm (captures'.map fun c => (c.1, some c.2)) := by
    rw [h, h']
    exact hspots.map _
  -- every capture can be read back from its name and its value
  have hback (cs : Captures) : (cs.map fun c => (c.1, some c.2)).filterMap (fun c => c.2.map (c.1, ·)) = cs := by
    rw [List.filterMap_map]
    exact List.filterMap_some
  rw [← hback captures, ← hback captures']
  exact hall.filterMap _

/-- **The order of fields does not matter.** A pattern was accepted, and its tests answer yes or no. With the fields of
any of its parts permuted it is accepted too; and on every value either both patterns match, with the same values bound
to the same names, or neither does. -/
theorem Permuted.run_agrees {p q : Pattern} (hp : p.Built) (h : Permuted p q) (v : Value) :
    q.Built ∧
      ((p.run v = .ok none ∧ q.run v = .ok none) ∨
        ∃ captures captures', p.run v = .ok (some captures) ∧ q.run v = .ok (some captures') ∧
          captures.Perm captures' ∧ ∀ name, captures.lookup name = captures'.lookup name) := by
  have hq := h.built hp
  obtain ⟨outcome, hrun, hiff, hfound⟩ := hp.exact v
  obtain ⟨outcome', hrun', hiff', hfound'⟩ := hq.exact v
  have hsame : outcome.isSome = true ↔ outcome'.isSome = true := hiff.trans ((h.satisfies_iff v).trans hiff'.symm)
  refine ⟨hq, ?_⟩
  cases outcome with
  | none =>
    cases outcome' with
    | none => exact .inl ⟨hrun, hrun'⟩
    | some captures' => exact absurd (hsame.mpr rfl) Bool.false_ne_true
  | some captures =>
    cases outcome' with
    | none => exact absurd (hsame.mp rfl) Bool.false_ne_true
    | some captures' =>
      have hperm := (hfound captures rfl).perm (hfound' captures' rfl) h.places
      have hnames : (captures.map Prod.fst).Nodup := by
        rw [(hfound captures rfl).names, places_names]
        exact hp.accepted.nodup
      exact .inr ⟨captures, captures', hrun, hrun', hperm, Captures.lookup_perm hperm hnames⟩

/-- Two captures under one key, one of them with fields of its own, and a field that is only compared. -/
def sampleNested : Pattern :=
  .fields [("a", .capture "x" (.fields
      [("b", .capture "y" (.test (Test.ofBool fun _ => true))), ("c", .literal .null)])),
    ("a", .capture "z" (.test (Test.ofBool fun _ => true))), ("d", .literal (.int 1))]

/-- The same with the fields permuted, outside and inside. -/
def sampleTurned : Pattern :=
  .fields [("d", .literal (.int 1)), ("a", .capture "z" (.test (Test.ofBool fun _ => true))),
    ("a", .capture "x" (.fields [("c", .literal .null), ("b", .capture "y" (.test (Test.ofBool fun _ => true)))]))]

theorem sampleNested_built : sampleNested.Built := by
  have hinner : (Pattern.fields [("b", .capture "y" (.test (Test.ofBool fun _ => true))),
      ("c", .literal .null)]).Built := by
    refine built_fields.mpr ⟨?_, by decide⟩
    simpa using ⟨built_capture.mpr ⟨.test _, by decide⟩, Built.literal _⟩
  refine built_fields.mpr ⟨?_, by decide⟩
  simpa using ⟨built_capture.mpr ⟨hinner, by decide⟩, built_capture.mpr ⟨.test _, by decide⟩, Built.literal _⟩

theorem sampleNested_permuted : Permuted sampleNested sampleTurned := by
  refine .trans (@Permuted.field [] _ "a" _ _ (.inner (.here (.swap _ _ [])))) ?_
  exact .here (List.reverse_perm [_, _, _]).symm

/-- An object of the shape. -/
def sampleShaped : Value := .new [("a", .new [("b", .text "t"), ("c", .null)]), ("d", .int 1), ("e", .null)]

theorem run_agrees_sample : sampleNested.Built ∧ Permuted sampleNested sampleTurned ∧ sampleTurned.Built ∧
    ∃ captures captures', sampleNested.run sampleShaped = .ok (some captures) ∧
      sampleTurned.run sampleShaped = .ok (some captures') ∧ captures.map Prod.fst = ["x", "y", "z"] ∧
      captures'.map Prod.fst = ["z", "x", "y"] ∧ captures.Perm captures' ∧
      ∀ name, captures.lookup name = captures'.lookup name := by
  obtain ⟨hbuilt, hagrees⟩ := Permuted.run_agrees sampleNested_built sampleNested_permuted sampleShaped
  refine ⟨sampleNested_built, sampleNested_permuted, hbuilt, ?_⟩
  rcases hagrees with ⟨hnone, _⟩ | ⟨captures, captures', hrun, hrun', hperm, hlookup⟩
  · cases hnone
  · refine ⟨captures, captures', hrun, hrun', ?_, ?_, hperm, hlookup⟩
    · rw [← Option.some.inj (Except.ok.inj hrun)]
      rfl
    · rw [← Option.some.inj (Except.ok.inj hrun')]
      rfl

end Pattern
end EsmLift
