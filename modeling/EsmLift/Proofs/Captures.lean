import EsmLift.Require.Grammar

/-!
# `Proofs.Captures` — what a match captures

A pattern that its constructors accept binds every name once, so the captures of its parts never clash and
`Captures.merge` is plain concatenation. The match of such a pattern is described without running it: a value
**satisfies** the pattern or not, and each capture **stands** at a path of keys, where its value is found.

Tests are the ones that answer yes or no; a test that brings up captures of its own is the subject of
`Proofs.Composition`.

## Contents

* `Captures.merge_of_nodup`, `Pattern.ofFields_ok`, `Pattern.named_ok`: the two checks of names;
* `Pattern.Satisfies`, `Pattern.places`, `Value.follow`: the meaning of a pattern;
* `Pattern.Built`: patterns that passed the checks;
* `Pattern.Built.run_exact`: the match of such a pattern has its meaning;
* `Require.built_member`: a pattern of the grammar that passed the checks.
-/

namespace EsmLift

/-! ## Distinct names -/

namespace Captures

/-- Captures with distinct names are put together as they are. -/
theorem merge_of_nodup {bound extra : Captures} (h : ((bound ++ extra).map Prod.fst).Nodup) :
    bound.merge extra = .ok (bound ++ extra) := by
  induction extra generalizing bound with
  | nil => rw [merge, List.append_nil]
  | cons c rest ih =>
    obtain ⟨name, v⟩ := c
    have hsplit : bound ++ (name, v) :: rest = bound ++ [(name, v)] ++ rest := by simp
    have hnot : name ∉ bound.map Prod.fst := by
      rw [List.map_append, List.map_cons] at h
      exact fun hmem => (List.nodup_append.mp h).2.2 name hmem name List.mem_cons_self rfl
    have hfresh : bound.any (·.1 == name) = false := by
      rw [List.any_eq_false]
      exact fun c hc heq => hnot (beq_iff_eq.mp heq ▸ List.mem_map_of_mem hc)
    rw [merge, hfresh, if_neg Bool.false_ne_true, hsplit]
    exact ih (hsplit ▸ h)

end Captures

namespace Pattern

theorem repeated?_eq_none {seen names : List String} :
    repeated? seen names = none ↔ names.Nodup ∧ ∀ name ∈ names, name ∉ seen := by
  induction names generalizing seen with
  | nil => simp [repeated?]
  | cons name rest ih =>
    rw [repeated?]
    by_cases hseen : seen.contains name = true
    · rw [if_pos hseen]
      have hmem : name ∈ seen := by simpa using hseen
      exact ⟨nofun, fun h => absurd hmem (h.2 name List.mem_cons_self)⟩
    · rw [if_neg hseen, ih, List.nodup_cons, List.forall_mem_cons]
      have hmem : name ∉ seen := by simpa using hseen
      constructor
      · rintro ⟨hrest, hnew⟩
        refine ⟨⟨fun h => hnew name h List.mem_cons_self, hrest⟩, hmem, fun other h hin => ?_⟩
        exact hnew other h (List.mem_cons_of_mem _ hin)
      · rintro ⟨⟨hname, hrest⟩, _, hnew⟩
        refine ⟨hrest, fun other h hin => ?_⟩
        rcases List.mem_cons.mp hin with rfl | hin
        · exact hname h
        · exact hnew other h hin

/-- A pattern of fields is accepted exactly if it binds no name twice. -/
theorem ofFields_ok {subs : List (String × Pattern)} {p : Pattern} :
    ofFields subs = .ok p ↔ p = .fields subs ∧ (namesOfFields subs).Nodup := by
  have hnone : repeated? [] (namesOfFields subs) = none ↔ (namesOfFields subs).Nodup := by
    simp [repeated?_eq_none]
  rw [← hnone, ofFields]
  cases repeated? [] (namesOfFields subs) with
  | none => exact ⟨fun h => ⟨(Except.ok.inj h).symm, rfl⟩, fun h => by rw [h.1]⟩
  | some name => exact ⟨nofun, fun h => nomatch h.2⟩

/-- A capture is accepted exactly if it binds no name twice. -/
theorem named_ok {name : String} {inner p : Pattern} :
    named name inner = .ok p ↔ p = .capture name inner ∧ (name :: inner.names).Nodup := by
  have hnone : repeated? [] (name :: inner.names) = none ↔ (name :: inner.names).Nodup := by
    simp [repeated?_eq_none]
  rw [← hnone, named]
  cases repeated? [] (name :: inner.names) with
  | none => exact ⟨fun h => ⟨(Except.ok.inj h).symm, rfl⟩, fun h => by rw [h.1]⟩
  | some name => exact ⟨nofun, fun h => nomatch h.2⟩

end Pattern

/-! ## The meaning of a pattern -/

/-- The value at a path of keys. -/
def Value.follow (v : Value) : List String → Option Value
  | [] => some v
  | key :: path => (v.get? key).bind fun w => w.follow path

namespace Pattern

mutual
/-- A value has the shape that a pattern describes. -/
def Satisfies : Pattern → Value → Prop
  | literal expected, v => v.equal expected = true
  | test check, v => ∃ captures, check v = .ok (some captures)
  | fields subs, v => v.isObject = true ∧ SatisfiesAll subs v
  | capture _ inner, v => Satisfies inner v

/-- A value has all the listed fields, each of the shape given for it. -/
def SatisfiesAll : List (String × Pattern) → Value → Prop
  | [], _ => True
  | (key, p) :: rest, v => (∃ w, v.get? key = some w ∧ Satisfies p w) ∧ SatisfiesAll rest v
end

mutual
/-- The captures of a pattern with the paths at which they stand, in order. -/
def places : Pattern → List (String × List String)
  | literal _ => []
  | test _ => []
  | fields subs => placesOfFields subs
  | capture name inner => (name, []) :: places inner

/-- The captures in a list of fields with the paths at which they stand. -/
def placesOfFields : List (String × Pattern) → List (String × List String)
  | [] => []
  | (key, p) :: rest => ((places p).map fun c => (c.1, key :: c.2)) ++ placesOfFields rest
end

/-- A pattern that its constructors accepted, with tests that answer yes or no. -/
inductive Built : Pattern → Prop
  | literal (expected : Value) : Built (.literal expected)
  | test (p : Value → Bool) : Built (.test (Test.ofBool p))
  | fields {subs : List (String × Pattern)} {p : Pattern} (hsubs : ∀ s ∈ subs, Built s.2)
      (hp : ofFields subs = .ok p) : Built p
  | capture {name : String} {inner p : Pattern} (hinner : Built inner) (hp : named name inner = .ok p) : Built p

mutual
/-- The captures that stand somewhere are the names that are bound. -/
theorem places_names : (p : Pattern) → p.places.map Prod.fst = p.names
  | literal _ => rfl
  | test _ => rfl
  | fields subs => by rw [places, names, placesOfFields_names subs]
  | capture name inner => by rw [places, names, List.map_cons, places_names inner]

theorem placesOfFields_names : (subs : List (String × Pattern)) →
    (placesOfFields subs).map Prod.fst = namesOfFields subs
  | [] => rfl
  | (key, p) :: rest => by
    rw [placesOfFields, namesOfFields, List.map_append, List.map_map, placesOfFields_names rest, ← places_names p]
    rfl
end

/-! ## Matching -/

/-- Captures that are found at the given places of a value. -/
def Found (v : Value) (spots : List (String × List String)) (captures : Captures) : Prop :=
  captures.map (fun c => (c.1, some c.2)) = spots.map fun c => (c.1, v.follow c.2)

theorem Found.names {v : Value} {spots : List (String × List String)} {captures : Captures}
    (h : Found v spots captures) : captures.map Prod.fst = spots.map Prod.fst := by
  simpa [Function.comp_def] using congrArg (List.map Prod.fst) h

theorem Found.append {v : Value} {spots spots' : List (String × List String)} {captures captures' : Captures}
    (h : Found v spots captures) (h' : Found v spots' captures') :
    Found v (spots ++ spots') (captures ++ captures') := by
  rw [Found, List.map_append, List.map_append, h, h']

/-- What is found in a field is found in the object, one key further. -/
theorem Found.under {v w : Value} {key : String} (hw : v.get? key = some w) {spots : List (String × List String)}
    {captures : Captures} (h : Found w spots captures) :
    Found v (spots.map fun c => (c.1, key :: c.2)) captures := by
  rw [Found, h, List.map_map]
  refine List.map_congr_left fun c _ => ?_
  rw [Function.comp_apply, Value.follow, hw]
  rfl

/-- The match of a pattern ends with the answer its meaning gives, and the captures are found where they stand. -/
def Exact (p : Pattern) (v : Value) : Prop :=
  ∃ outcome, p.run v = .ok outcome ∧ (outcome.isSome = true ↔ p.Satisfies v) ∧
    ∀ captures, outcome = some captures → Found v p.places captures

/-- The answer no is exact for a value that is not of the shape. -/
theorem exact_none {p : Pattern} {v : Value} (hrun : p.run v = .ok none) (h : ¬p.Satisfies v) : p.Exact v :=
  ⟨none, hrun, ⟨nofun, fun hs => absurd hs h⟩, nofun⟩

/-- The answer yes is exact for a value of the shape, with captures from where they stand. -/
theorem exact_some {p : Pattern} {v : Value} {captures : Captures} (hrun : p.run v = .ok (some captures))
    (h : p.Satisfies v) (hfound : Found v p.places captures) : p.Exact v :=
  ⟨some captures, hrun, ⟨fun _ => h, fun _ => rfl⟩, fun _ heq => Option.some.inj heq ▸ hfound⟩

/-- Fields that are matched one after another, after the captures `bound`. -/
theorem runFields_exact {m : Nat} {fs : Fields} (subs : List (String × Pattern))
    (hsubs : ∀ s ∈ subs, ∀ w, s.2.Exact w) (bound : Captures)
    (hnames : (bound.map Prod.fst ++ namesOfFields subs).Nodup) :
    ∃ outcome, runFields subs fs bound = .ok outcome ∧
      (outcome.isSome = true ↔ SatisfiesAll subs (.object m fs)) ∧
      ∀ captures, outcome = some captures →
        ∃ extra, captures = bound ++ extra ∧ Found (.object m fs) (placesOfFields subs) extra := by
  induction subs generalizing bound with
  | nil =>
    refine ⟨some bound, rfl, ⟨fun _ => trivial, fun _ => rfl⟩, fun captures h => ⟨[], ?_, rfl⟩⟩
    rw [List.append_nil, Option.some.inj h]
  | cons s rest ih =>
    obtain ⟨key, p⟩ := s
    obtain ⟨hp, hrest⟩ := List.forall_mem_cons.mp hsubs
    rw [namesOfFields] at hnames
    rw [runFields]
    cases hl : fs.lookup key with
    | none =>
      refine ⟨none, rfl, ⟨nofun, ?_⟩, nofun⟩
      rintro ⟨⟨w, hw, _⟩, _⟩
      cases hl.symm.trans hw
    | some w =>
      have hget : (Value.object m fs).get? key = some w := hl
      obtain ⟨outcome, hrun, hiff, hfound⟩ := hp w
      dsimp only
      rw [hrun]
      cases outcome with
      | none =>
        refine ⟨none, rfl, ⟨nofun, ?_⟩, nofun⟩
        rintro ⟨⟨w', hw', hs⟩, _⟩
        obtain rfl : w = w' := Option.some.inj (hget.symm.trans hw')
        exact hiff.mpr hs
      | some captures =>
        have hcaptures := hfound captures rfl
        have hbound : ((bound ++ captures).map Prod.fst) = bound.map Prod.fst ++ p.names := by
          rw [List.map_append, hcaptures.names, places_names]
        rw [← List.append_assoc, ← hbound] at hnames
        obtain ⟨outcome, hrest, hiff', hfound'⟩ := ih hrest (bound ++ captures) hnames
        dsimp only
        rw [Captures.merge_of_nodup (List.nodup_append.mp hnames).1]
        refine ⟨outcome, hrest, hiff'.trans ?_, fun all hall => ?_⟩
        · exact ⟨fun h => ⟨⟨w, hget, hiff.mp rfl⟩, h⟩, fun h => h.2⟩
        · obtain ⟨extra, rfl, hextra⟩ := hfound' all hall
          refine ⟨captures ++ extra, List.append_assoc .., ?_⟩
          exact (hcaptures.under hget).append hextra

/-- **Every pattern that was accepted is matched exactly.** -/
theorem Built.exact {p : Pattern} (h : p.Built) (v : Value) : p.Exact v := by
  induction h generalizing v with
  | literal expected =>
    cases heq : v.equal expected with
    | false => exact exact_none (by rw [run, heq]; rfl) (by rw [Satisfies, heq]; exact Bool.false_ne_true)
    | true =>
      have hrun : (Pattern.literal expected).run v = .ok (some []) := by rw [run, heq]; rfl
      exact exact_some hrun heq rfl
  | test p =>
    have hrun : (Pattern.test (Test.ofBool p)).run v = .ok (if p v then some [] else none) := rfl
    cases hp : p v with
    | false =>
      rw [hp] at hrun
      exact exact_none hrun fun ⟨captures, hc⟩ => nomatch hrun.symm.trans hc
    | true =>
      rw [hp] at hrun
      exact exact_some hrun ⟨[], hrun⟩ rfl
  | @fields subs p _ hp ih =>
    obtain ⟨rfl, hnames⟩ := ofFields_ok.mp hp
    cases v with
    | object m fs =>
      obtain ⟨outcome, hrun, hiff, hfound⟩ := @runFields_exact m fs subs ih [] hnames
      refine ⟨outcome, hrun, hiff.trans ⟨fun h => ⟨rfl, h⟩, fun h => h.2⟩, fun captures hc => ?_⟩
      obtain ⟨extra, rfl, hextra⟩ := hfound captures hc
      exact hextra
    | _ => exact exact_none rfl fun h => nomatch h.1
  | @capture name inner p _ hp ih =>
    obtain ⟨rfl, hnames⟩ := named_ok.mp hp
    obtain ⟨outcome, hrun, hiff, hfound⟩ := ih v
    cases outcome with
    | none => exact exact_none (by rw [run, hrun]) fun h => nomatch hiff.mpr h
    | some captures =>
      have hcaptures := hfound captures rfl
      have hmerge : Captures.merge [(name, v)] captures = .ok ((name, v) :: captures) := by
        have hdistinct : (([(name, v)] ++ captures).map Prod.fst).Nodup := by
          rw [List.singleton_append, List.map_cons, hcaptures.names, places_names]
          exact hnames
        exact Captures.merge_of_nodup hdistinct
      refine exact_some (by rw [run, hrun]; dsimp only; rw [hmerge]; rfl) (hiff.mp rfl) ?_
      rw [Found, places, List.map_cons, List.map_cons, hcaptures]
      rfl

/-- **Captures are exact.** The match of a pattern that its constructors accepted never fails with a fault. It
succeeds exactly on the values that satisfy the pattern, and then binds the names of the pattern in order, each to
the value at the path where its capture stands. -/
theorem Built.run_exact {p : Pattern} (h : p.Built) (v : Value) :
    ∃ outcome, p.run v = .ok outcome ∧ (outcome.isSome = true ↔ p.Satisfies v) ∧
      ∀ captures, outcome = some captures → captures.map Prod.fst = p.names ∧
        captures.map (fun c => (c.1, some c.2)) = p.places.map fun c => (c.1, v.follow c.2) := by
  obtain ⟨outcome, hrun, hiff, hfound⟩ := h.exact v
  refine ⟨outcome, hrun, hiff, fun captures hc => ⟨?_, hfound captures hc⟩⟩
  rw [(hfound captures hc).names, places_names]

end Pattern

/-! ## The grammar of loads -/

namespace Require

open Pattern

theorem built_node {type : NodeType} {subs : List (String × Pattern)} (hsubs : ∀ s ∈ subs, s.2.Built)
    (hnames : (namesOfFields subs).Nodup) : (node type subs).Built :=
  .fields (List.forall_mem_cons.mpr ⟨.literal _, hsubs⟩) (ofFields_ok.mpr ⟨rfl, hnames⟩)

theorem built_identifier : identifier.Built := built_node nofun .nil

theorem built_call : call.Built := by
  have hcallee : (node .identifier [("name", .literal (.text "require"))]).Built :=
    built_node (by simpa using Built.literal _) (by decide)
  have hsources : (Pattern.capture "sources" (.test (Test.ofBool isOneSource))).Built :=
    .capture (.test _) (named_ok.mpr ⟨rfl, by decide⟩)
  exact built_node (by simpa using ⟨hcallee, hsources⟩) (by decide)

/-- The pattern of `id = require(source).property` binds its three names once. -/
theorem built_member : member.Built := by
  have hid : (Pattern.capture "id" identifier).Built := .capture built_identifier (named_ok.mpr ⟨rfl, by decide⟩)
  have hproperty : (Pattern.capture "property" (node .identifier [])).Built :=
    .capture built_identifier (named_ok.mpr ⟨rfl, by decide⟩)
  have hinit : (node .memberExpression [("computed", .literal (.bool false)), ("object", call),
      ("property", .capture "property" (node .identifier []))]).Built :=
    built_node (by simpa using ⟨Built.literal _, built_call, hproperty⟩) (by decide)
  exact built_node (by simpa using ⟨hid, hinit⟩) (by decide)

/-- The declarator `a = require("m").b`. -/
def sampleAccess : Value :=
  .new [("type", NodeType.variableDeclarator.value),
    ("id", .new [("type", NodeType.identifier.value), ("name", .text "a")]),
    ("init", .new [("type", NodeType.memberExpression.value), ("computed", .bool false),
      ("object", .new [("type", NodeType.callExpression.value),
        ("callee", .new [("type", NodeType.identifier.value), ("name", .text "require")]),
        ("arguments", .newList [.new [("type", NodeType.literal.value), ("value", .text "m")]])]),
      ("property", .new [("type", NodeType.identifier.value), ("name", .text "b")])])]

theorem run_exact_member : member.Built ∧ member.names = ["id", "sources", "property"] ∧
    member.holds sampleAccess = true ∧
    ∃ outcome, member.run sampleAccess = .ok outcome ∧ (outcome.isSome = true ↔ member.Satisfies sampleAccess) ∧
      ∀ captures, outcome = some captures → captures.map Prod.fst = member.names ∧
        captures.map (fun c => (c.1, some c.2)) = member.places.map fun c => (c.1, sampleAccess.follow c.2) :=
  ⟨built_member, by decide, by decide, built_member.run_exact sampleAccess⟩

end Require

end EsmLift
