import EsmLift.Proofs.Catalog
import EsmLift.Proofs.Refinement

/-!
# `Proofs.Specifiers` — the specifiers of an import

A flat pattern `{a, default: b, c: d}` becomes a list of specifiers: one for each property, the default specifiers
first. Here this list is computed from the properties. It is the stable partition of the properties by whether they
take the default export, and so the stable sort of the specifiers by their kind.

Import syntax has room for one default specifier, in front of the others. The import of a declarator keeps to this
exactly if its pattern takes the default export at most once; a pattern may name it twice, and then the import has two
default specifiers.

## Contents

* `Load.Of`, `Require.load?_iff`: what a declarator loads, in the words of the grammar;
* `Require.specifier_eq`, `Require.propertySpecifiers_eq`: the specifiers of names, faults included;
* `Require.defaultsFirst_map`, `Require.defaultsFirst_eq_mergeSort`: the order of the specifiers;
* `Require.classify_pattern_partitions`;
* `Syntax.Legal`, `Require.defaultKeys`, `Require.classify_legal_iff`: when an import keeps to import syntax.
-/

namespace EsmLift

open Value

/-! ## What a declarator loads -/

/-- The declarator `d` is a load, in the words of the grammar. -/
inductive Load.Of (d : Value) : Load → Prop where
  | whole {id source : Value} {mark : Nat}
      (plain : Require.PlainLoad d [("id", id), ("sources", .list mark [source])]) (name : Require.IsName id) :
      Load.Of d (.whole id source)
  | exports {id source : Value} {mark mark' : Nat} {properties : List Value}
      (plain : Require.PlainLoad d [("id", id), ("sources", .list mark [source])])
      (type : id.get? "type" = some (.text "ObjectPattern"))
      (found : id.get? "properties" = some (.list mark' properties))
      (simple : ∀ p ∈ properties, Require.IsSimpleProperty p) : Load.Of d (.exports properties source)
  | one {id property source : Value} {mark : Nat}
      (member : Require.MemberLoad d [("id", id), ("sources", .list mark [source]), ("property", property)]) :
      Load.Of d (.one id property source)

namespace Require

/-- A pattern that accepts a grammar matches with the captures of the grammar. -/
theorem run_iff_of_accepts {p : Pattern} {d : Value} {G : Captures → Prop}
    (h : ∃ outcome, p.run d = .ok outcome ∧ ∀ captures, outcome = some captures ↔ G captures) {captures : Captures} :
    p.run d = .ok (some captures) ↔ G captures := by
  obtain ⟨outcome, hrun, hG⟩ := h
  rw [hrun, ← hG]
  exact ⟨Except.ok.inj, congrArg Except.ok⟩

theorem plain_run_iff {d : Value} {captures : Captures} :
    plain.run d = .ok (some captures) ↔ PlainLoad d captures :=
  run_iff_of_accepts (accepts_of_run (plain_run d) fun _ => plainLoad_iff)

theorem member_run_iff {d : Value} {captures : Captures} :
    member.run d = .ok (some captures) ↔ MemberLoad d captures :=
  run_iff_of_accepts (accepts_of_run (member_run d) fun _ => memberLoad_iff)

/-- A call that loads a module has one argument. -/
theorem IsLoad.exists_source {call sources : Value} (h : IsLoad call sources) :
    ∃ mark source, sources = .list mark [source] := by
  cases h
  exact ⟨_, _, rfl⟩

theorem PlainLoad.parts {d id sources : Value} (h : PlainLoad d [("id", id), ("sources", sources)]) :
    IsBinding id ∧ ∃ mark source, sources = .list mark [source] := by
  cases h with
  | intro type foundId binding foundInit load => exact ⟨binding, load.exists_source⟩

theorem MemberLoad.parts {d id sources property : Value}
    (h : MemberLoad d [("id", id), ("sources", sources), ("property", property)]) :
    IsName property ∧ ∃ mark source, sources = .list mark [source] := by
  cases h with
  | intro type foundId name foundInit accessType computed foundObject load foundProperty propertyName =>
    exact ⟨propertyName, load.exists_source⟩

/-- A name is no pattern. -/
theorem IsName.not_pattern {v : Value} (h : IsName v) : v.isA .objectPattern = false :=
  isA_unique (s := .identifier) (isName_iff.mpr h) (by decide)

/-- A call is no access to a property, so no declarator is of both kinds. -/
theorem isPlain_of_isMember {d : Value} (h : isMember d = true) : isPlain d = false := by
  simp only [isMember, isAccess, Bool.and_eq_true] at h
  have hcall : (d.at "init").isA .callExpression = false := isA_unique h.2.2.1 (by decide)
  simp [isPlain, isCall, hcall]

/-- What a declarator loads is read off it exactly as the grammar says. -/
theorem load?_iff {d : Value} {l : Load} : load? d = some l ↔ Load.Of d l := by
  constructor
  · intro h
    unfold load? at h
    split at h
    · rename_i hp
      have hplain := plainLoad_iff.mp ⟨hp, rfl⟩
      obtain ⟨hbinding, mark, source, hsources⟩ := hplain.parts
      have hmodule : moduleOf (d.at "init") = source := by rw [moduleOf, hsources, firstOf]
      rw [hsources] at hplain
      rw [hmodule] at h
      cases hbinding with
      | name hname =>
        rw [if_neg (by rw [hname.not_pattern]; exact Bool.false_ne_true)] at h
        cases h
        exact .whole hplain hname
      | pattern type found simple =>
        rw [if_pos (isA_iff.mpr type), at_eq found] at h
        cases h
        exact .exports hplain type found simple
    · split at h
      · rename_i hm
        have hmember := memberLoad_iff.mp ⟨hm, rfl⟩
        obtain ⟨_, mark, source, hsources⟩ := hmember.parts
        have hmodule : moduleOf ((d.at "init").at "object") = source := by rw [moduleOf, hsources, firstOf]
        rw [hsources] at hmember
        rw [hmodule] at h
        cases h
        exact .one hmember
      · cases h
  · intro h
    unfold load?
    cases h with
    | whole plain name =>
      obtain ⟨hp, hcaptures⟩ := plainLoad_iff.mpr plain
      simp only [List.cons.injEq, Prod.mk.injEq, true_and, and_true] at hcaptures
      rw [if_pos hp, moduleOf, ← hcaptures.1, ← hcaptures.2,
        if_neg (by rw [name.not_pattern]; exact Bool.false_ne_true), firstOf]
    | exports plain type found simple =>
      obtain ⟨hp, hcaptures⟩ := plainLoad_iff.mpr plain
      simp only [List.cons.injEq, Prod.mk.injEq, true_and, and_true] at hcaptures
      rw [if_pos hp, moduleOf, ← hcaptures.1, ← hcaptures.2, if_pos (isA_iff.mpr type), at_eq found, firstOf, listed]
    | one member =>
      obtain ⟨hm, hcaptures⟩ := memberLoad_iff.mpr member
      have hp : ¬isPlain d = true := by rw [isPlain_of_isMember hm]; exact Bool.false_ne_true
      simp only [List.cons.injEq, Prod.mk.injEq, true_and, and_true] at hcaptures
      rw [if_neg hp, if_pos hm, moduleOf, ← hcaptures.1, ← hcaptures.2.1, ← hcaptures.2.2, firstOf]

/-! ## The specifier of a property -/

/-- Whether a property takes the default export. -/
def takesDefault (p : Value) : Bool := isDefault ((p.at "key").at "name")

/-- Whether the key of a property says what it is called. -/
def isKeyNamed (p : Value) : Bool := ((p.at "key").get? "name").isSome

/-- The default specifier of a property. -/
def defaultOf (p : Value) : Value := Syntax.importDefaultSpecifier (p.at "value")

/-- The named specifier of a property. -/
def namedOf (p : Value) : Value := Syntax.importSpecifier (p.at "value") (p.at "key")

/-- The specifier of a property whose key has a name. -/
def specifierOf (p : Value) : Value := if takesDefault p then defaultOf p else namedOf p

/-- A name that does not say what it is called is the one cause of a fault. -/
theorem specifier_eq {imported : Value} (h : IsName imported) (localName : Value) :
    specifier localName imported =
      if (imported.get? "name").isSome then
        .ok (if isDefault (imported.at "name") then Syntax.importDefaultSpecifier localName
          else Syntax.importSpecifier localName imported)
      else .error (.missingField "name") := by
  obtain ⟨m, fs, rfl, _⟩ := exists_of_get? h
  cases hname : (Value.object m fs).get? "name" with
  | none =>
    have hlookup : fs.lookup "name" = none := hname
    simp [specifier, Value.require, hlookup, bind, Except.bind]
  | some name =>
    rw [specifier, require_of_get? hname, at_eq hname]
    show (if isDefault name then _ else _) = Except.ok (if isDefault name then _ else _)
    split <;> rfl

theorem propertySpecifier_eq {p : Value} (h : IsSimpleProperty p) :
    propertySpecifier p = if isKeyNamed p then .ok (specifierOf p) else .error (.missingField "name") := by
  obtain ⟨_, ⟨key, hkey, hname⟩, _, ⟨value, hvalue, _⟩⟩ := h
  have hspecifier := specifier_eq hname value
  rw [propertySpecifier, require_of_get? hvalue, require_of_get? hkey]
  unfold isKeyNamed specifierOf takesDefault defaultOf namedOf
  rw [at_eq hkey, at_eq hvalue]
  exact hspecifier

/-- **The specifiers of the properties of a flat pattern.** There is one for each property, in order, unless some key
has no name. -/
theorem propertySpecifiers_eq {ps : List Value} (h : ∀ p ∈ ps, IsSimpleProperty p) :
    propertySpecifiers ps =
      if ps.all isKeyNamed then .ok (ps.map specifierOf) else .error (.missingField "name") := by
  induction ps with
  | nil => rfl
  | cons p rest ih =>
    obtain ⟨hp, hrest⟩ := List.forall_mem_cons.mp h
    rw [propertySpecifiers, propertySpecifier_eq hp, ih hrest, List.all_cons]
    cases isKeyNamed p with
    | false => rfl
    | true =>
      cases rest.all isKeyNamed with
      | false => rfl
      | true => rfl

/-! ## The order of specifiers -/

@[simp] theorem isA_specifierOf (p : Value) : (specifierOf p).isA .importDefaultSpecifier = takesDefault p := by
  unfold specifierOf
  cases takesDefault p with
  | false => rfl
  | true => rfl

/-- Default specifiers come first, and properties keep their order among the defaults and among the others. -/
theorem defaultsFirst_map (ps : List Value) :
    defaultsFirst (ps.map specifierOf) =
      (ps.filter takesDefault).map defaultOf ++ (ps.filter (!takesDefault ·)).map namedOf := by
  have hdefaults : (ps.filter takesDefault).map specifierOf = (ps.filter takesDefault).map defaultOf := by
    apply List.map_congr_left
    intro p hp
    rw [specifierOf, if_pos (List.mem_filter.mp hp).2]
  have hothers : (ps.filter (!takesDefault ·)).map specifierOf = (ps.filter (!takesDefault ·)).map namedOf := by
    apply List.map_congr_left
    intro p hp
    have hnot := (List.mem_filter.mp hp).2
    rw [specifierOf, if_neg (by simpa using hnot)]
  simp only [defaultsFirst, List.filter_map, Function.comp_def, isA_specifierOf]
  rw [hdefaults, hothers]

end Require

/-- Where the items with a property stand before the others, they are those that pass the test, and then the rest. -/
theorem eq_filter_append_of_pairwise {α : Type} {p : α → Bool} {xs : List α}
    (h : xs.Pairwise fun x y => (p x || !p y) = true) : xs = xs.filter p ++ xs.filter (!p ·) := by
  induction xs with
  | nil => rfl
  | cons x rest ih =>
    obtain ⟨hx, hrest⟩ := List.pairwise_cons.mp h
    cases hp : p x with
    | true =>
      simp only [List.filter_cons, hp, if_true, Bool.not_true, Bool.false_eq_true, if_false, List.cons_append]
      rw [← ih hrest]
    | false =>
      -- nothing after `x` passes the test
      have hnone : ∀ y ∈ rest, p y = false := fun y hy => by simpa [hp] using hx y hy
      have hfirst : rest.filter p = [] := List.filter_eq_nil_iff.mpr fun y hy => by simp [hnone y hy]
      have hall : rest.filter (!p ·) = rest := List.filter_eq_self.mpr fun y hy => by simp [hnone y hy]
      simp [hp, hfirst, hall]

/-- A stable sort by a test is a partition. -/
theorem mergeSort_eq_filter_append {α : Type} (p : α → Bool) (xs : List α) :
    xs.mergeSort (fun x y => p x || !p y) = xs.filter p ++ xs.filter (!p ·) := by
  have htrans (a b c : α) : (p a || !p b) = true → (p b || !p c) = true → (p a || !p c) = true := by
    cases p a <;> cases p b <;> cases p c <;> simp
  have htotal (a b : α) : ((p a || !p b) || (p b || !p a)) = true := by
    cases p a <;> cases p b <;> rfl
  have hperm := List.mergeSort_perm xs fun x y => p x || !p y
  -- items of one kind keep their order, and there are as many of them as before
  have hkept (q : α → Bool) (hq : ∀ x y, q x = true → q y = true → (p x || !p y) = true) :
      (xs.mergeSort fun x y => p x || !p y).filter q = xs.filter q := by
    have hpairs : (xs.filter q).Pairwise fun x y => (p x || !p y) = true :=
      List.pairwise_iff_forall_sublist.mpr fun hsub => by
        have hmem := fun z hz => (List.mem_filter.mp (hsub.subset (a := z) hz)).2
        exact hq _ _ (hmem _ (by simp)) (hmem _ (by simp))
    have hsub := (List.sublist_mergeSort htrans htotal hpairs List.filter_sublist).filter q
    rw [List.filter_filter, List.filter_congr fun x _ => Bool.and_self (q x)] at hsub
    exact (hsub.eq_of_length (hperm.filter q).length_eq.symm).symm
  calc xs.mergeSort (fun x y => p x || !p y)
      = _ := eq_filter_append_of_pairwise (List.pairwise_mergeSort htrans htotal xs)
    _ = xs.filter p ++ xs.filter (!p ·) := by
      rw [hkept p fun x y hx _ => by rw [hx]; rfl, hkept (!p ·) fun x y _ hy => by rw [hy, Bool.or_true]]

namespace Require

/-- The order of specifiers is that of a stable sort, default specifiers before the others. -/
theorem defaultsFirst_eq_mergeSort (ss : List Value) :
    defaultsFirst ss
      = ss.mergeSort fun s t => s.isA .importDefaultSpecifier || !t.isA .importDefaultSpecifier :=
  (mergeSort_eq_filter_append (fun s : Value => s.isA .importDefaultSpecifier) ss).symm

/-! ## Flat patterns -/

/-- The import of a declarator is that of a load of the grammar. -/
theorem of_classify {d n : Value} (h : classify d = .ok (some n)) : ∃ l, Load.Of d l ∧ l.toImport = .ok n := by
  rw [classify_eq] at h
  cases hl : load? d with
  | none =>
    rw [hl] at h
    cases h
  | some l =>
    rw [hl] at h
    obtain ⟨n', hn, hsome⟩ := map_ok h
    cases hsome
    exact ⟨l, load?_iff.mp hl, hn⟩

/-- The import of a flat pattern, if there is one. -/
theorem toImport_exports {ps : List Value} {source n : Value} (hps : ∀ p ∈ ps, IsSimpleProperty p)
    (h : (Load.exports ps source).toImport = .ok n) :
    n = Syntax.importDeclaration (defaultsFirst (ps.map specifierOf)) source := by
  rw [Load.toImport, propertySpecifiers_eq hps] at h
  split at h
  · exact (Except.ok.inj h).symm
  · cases h

/-- **A flat pattern becomes the stable partition of its properties.** If a declarator with a pattern is an import,
its specifiers are a default specifier for each property that takes the default export, and then a named specifier for
each other property, both in the order of the pattern and each with the names of its own property; they are the
specifiers of the properties under a stable sort, as many as there are properties. The source is the literal that is
loaded. -/
theorem classify_pattern_partitions {d id n : Value} (hid : d.get? "id" = some id)
    (hpattern : id.get? "type" = some (.text "ObjectPattern")) (h : classify d = .ok (some n)) :
    ∃ call mark source mark' properties specifiers,
      d.get? "init" = some call ∧ IsLoad call (.list mark [source]) ∧
      id.get? "properties" = some (.list mark' properties) ∧ (∀ p ∈ properties, IsSimpleProperty p) ∧
      n = Syntax.importDeclaration specifiers source ∧
      specifiers = (properties.filter takesDefault).map defaultOf ++ (properties.filter (!takesDefault ·)).map namedOf ∧
      specifiers = (properties.map specifierOf).mergeSort
        (fun s t => s.isA .importDefaultSpecifier || !t.isA .importDefaultSpecifier) ∧
      specifiers.length = properties.length := by
  have hA : id.isA .objectPattern = true := isA_iff.mpr hpattern
  obtain ⟨l, hl, hn⟩ := of_classify h
  cases hl with
  | whole plain name =>
    obtain ⟨_, foundId, _, _, _⟩ := plain
    cases hid.symm.trans foundId
    rw [name.not_pattern] at hA
    cases hA
  | @exports id' source mark mark' properties plain type found simple =>
    obtain ⟨_, foundId, _, foundInit, load⟩ := plain
    cases hid.symm.trans foundId
    refine ⟨_, mark, source, mark', properties, _, foundInit, load, found, simple, toImport_exports simple hn,
      defaultsFirst_map properties, defaultsFirst_eq_mergeSort _, ?_⟩
    rw [(defaultsFirst_perm _).length_eq, List.length_map]
  | one member =>
    obtain ⟨_, foundId, name, _, _, _, _, _, _, _⟩ := member
    cases hid.symm.trans foundId
    rw [name.not_pattern] at hA
    cases hA

/-- `{properties} = require("m")` -/
def Sample.unpack (properties : List Value) : Value :=
  Lift.Sample.declarator
    (.new [("type", NodeType.objectPattern.value), ("properties", .newList properties)]) (Lift.Sample.load "m")

/-- `"m"` -/
def Sample.path : Value := .new [("type", NodeType.literal.value), ("value", .text "m")]

/-- `{x: y, default: d, z: z} = require("m")` -/
def Sample.mixed : Value :=
  Sample.unpack [Lift.Sample.property "x" "y", Lift.Sample.property "default" "d", Lift.Sample.property "z" "z"]

/-- `import d, {x as y, z} from "m"` -/
def Sample.mixedImport : Value :=
  Syntax.importDeclaration [Syntax.importDefaultSpecifier (Lift.Sample.name "d"),
    Syntax.importSpecifier (Lift.Sample.name "y") (Lift.Sample.name "x"),
    Syntax.importSpecifier (Lift.Sample.name "z") (Lift.Sample.name "z")] Sample.path

theorem classify_pattern_partitions_sample :
    classify Sample.mixed = .ok (some Sample.mixedImport) ∧
      ∃ call mark source mark' properties specifiers,
        Sample.mixed.get? "init" = some call ∧ IsLoad call (.list mark [source]) ∧
        (Sample.mixed.at "id").get? "properties" = some (.list mark' properties) ∧
        (∀ p ∈ properties, IsSimpleProperty p) ∧ Sample.mixedImport = Syntax.importDeclaration specifiers source ∧
        specifiers =
          (properties.filter takesDefault).map defaultOf ++ (properties.filter (!takesDefault ·)).map namedOf ∧
        specifiers = (properties.map specifierOf).mergeSort
          (fun s t => s.isA .importDefaultSpecifier || !t.isA .importDefaultSpecifier) ∧
        specifiers.length = properties.length :=
  ⟨rfl, classify_pattern_partitions (d := Sample.mixed) rfl rfl rfl⟩

end Require

/-! ## Import syntax -/

/-- Import syntax: at most one default specifier, and it is the first specifier. -/
structure Syntax.Legal (specifiers : List Value) : Prop where
  single : specifiers.countP (·.isA .importDefaultSpecifier) ≤ 1
  first : ∀ s ∈ specifiers, s.isA .importDefaultSpecifier = true → specifiers.head? = some s

namespace Require

/-- With default specifiers first, only their number matters. -/
theorem legal_defaultsFirst_iff (ss : List Value) :
    Syntax.Legal (defaultsFirst ss) ↔ ss.countP (·.isA .importDefaultSpecifier) ≤ 1 := by
  have hcount := (defaultsFirst_perm ss).countP_eq (·.isA .importDefaultSpecifier)
  constructor
  · intro h
    rw [← hcount]
    exact h.single
  · intro h
    refine ⟨hcount ▸ h, ?_⟩
    intro s hs hA
    have hmem : s ∈ ss.filter (·.isA .importDefaultSpecifier) :=
      List.mem_filter.mpr ⟨(defaultsFirst_perm ss).mem_iff.mp hs, hA⟩
    rw [List.countP_eq_length_filter] at h
    -- the one default specifier is all there is in front
    obtain ⟨t, ht⟩ := List.length_eq_one_iff.mp (Nat.le_antisymm h (List.length_pos_of_mem hmem))
    rw [ht] at hmem
    rw [defaultsFirst, ht, List.mem_singleton.mp hmem]
    rfl

/-- How often the pattern of a declarator takes the default export. -/
def defaultKeys (d : Value) : Nat :=
  if (d.at "id").isA .objectPattern then (listed ((d.at "id").at "properties")).countP takesDefault else 0

/-- A declarator that binds one name has no pattern. -/
theorem IsName.defaultKeys {d id : Value} (h : IsName id) (hid : d.get? "id" = some id) : defaultKeys d = 0 := by
  rw [Require.defaultKeys, at_eq hid, if_neg (by rw [h.not_pattern]; exact Bool.false_ne_true)]

theorem defaultsFirst_singleton (s : Value) : defaultsFirst [s] = [s] := by
  cases h : s.isA .importDefaultSpecifier <;> simp [defaultsFirst, h]

/-- The specifiers of an import, before the default ones are put first. -/
theorem exists_unsorted {d n : Value} (h : classify d = .ok (some n)) :
    ∃ ss source, n = Syntax.importDeclaration (defaultsFirst ss) source ∧
      (ss.countP (·.isA .importDefaultSpecifier) ≤ 1 ↔ defaultKeys d ≤ 1) := by
  -- a load that binds one name has one specifier
  have hone (s : Value) {id : Value} (hname : IsName id) (hid : d.get? "id" = some id) :
      [s].countP (·.isA .importDefaultSpecifier) ≤ 1 ↔ defaultKeys d ≤ 1 := by
    rw [hname.defaultKeys hid]
    exact iff_of_true List.countP_le_length (Nat.zero_le 1)
  obtain ⟨l, hl, hn⟩ := of_classify h
  cases hl with
  | @whole id source _ plain name =>
    obtain ⟨_, foundId, _, _, _⟩ := plain
    refine ⟨[Syntax.importDefaultSpecifier id], source, ?_, hone _ name foundId⟩
    rw [defaultsFirst_singleton]
    exact (Except.ok.inj hn).symm
  | @exports id source _ _ properties plain type found simple =>
    obtain ⟨_, foundId, _, _, _⟩ := plain
    refine ⟨properties.map specifierOf, source, toImport_exports simple hn, ?_⟩
    rw [defaultKeys, at_eq foundId, if_pos (isA_iff.mpr type), at_eq found, List.countP_map]
    simp only [Function.comp_def, isA_specifierOf, listed]
  | @one id property source _ member =>
    obtain ⟨_, foundId, name, _, _, _, _, _, _, _⟩ := member
    obtain ⟨s, _, rfl⟩ := map_ok hn
    refine ⟨[s], source, ?_, hone s name foundId⟩
    rw [defaultsFirst_singleton]

/-- **An import is legal exactly if its pattern takes the default export at most once.** Default specifiers come before
the others in any case, but there is one for each time that the pattern takes the default export. -/
theorem classify_legal_iff {d n : Value} (h : classify d = .ok (some n)) :
    ∃ defaults others source, n = Syntax.importDeclaration (defaults ++ others) source ∧
      (∀ s ∈ defaults, s.isA .importDefaultSpecifier = true) ∧
      (∀ s ∈ others, s.isA .importDefaultSpecifier = false) ∧
      (Syntax.Legal (defaults ++ others) ↔ defaultKeys d ≤ 1) := by
  obtain ⟨ss, source, rfl, hcount⟩ := exists_unsorted h
  refine ⟨ss.filter (·.isA .importDefaultSpecifier), ss.filter (!·.isA .importDefaultSpecifier), source, rfl, ?_, ?_,
    (legal_defaultsFirst_iff ss).trans hcount⟩
  · intro s hs
    exact (List.mem_filter.mp hs).2
  · intro s hs
    simpa using (List.mem_filter.mp hs).2

/-- `{default: a, default: b} = require("m")` -/
def Sample.twice : Value := Sample.unpack [Lift.Sample.property "default" "a", Lift.Sample.property "default" "b"]

/-- `import a, b from "m"`, which no parser takes. -/
def Sample.twiceImport : Value :=
  Syntax.importDeclaration [Syntax.importDefaultSpecifier (Lift.Sample.name "a"),
    Syntax.importDefaultSpecifier (Lift.Sample.name "b")] Sample.path

theorem classify_legal_iff_sample :
    classify Sample.twice = .ok (some Sample.twiceImport) ∧ defaultKeys Sample.twice = 2 ∧
      ∃ defaults others source, Sample.twiceImport = Syntax.importDeclaration (defaults ++ others) source ∧
        (∀ s ∈ defaults, s.isA .importDefaultSpecifier = true) ∧
        (∀ s ∈ others, s.isA .importDefaultSpecifier = false) ∧
        (Syntax.Legal (defaults ++ others) ↔ defaultKeys Sample.twice ≤ 1) :=
  ⟨rfl, rfl, classify_legal_iff (d := Sample.twice) rfl⟩

/-- Not every import is legal: a pattern may take the default export twice. -/
theorem classify_not_always_legal :
    ¬∀ d n, classify d = .ok (some n) → Syntax.Legal (listed (n.at "specifiers")) := by
  intro h
  have hlegal := h Sample.twice Sample.twiceImport rfl
  exact absurd hlegal.single (by decide)

end Require
end EsmLift
