import EsmLift.Proofs.Bindings
import EsmLift.Proofs.Entries
import EsmLift.Proofs.Specifiers

/-!
# `Proofs.Conversion` — what is recognised is converted

Whether a declarator loads a module is asked by matching it against the grammar; the import that it stands for is
built from the captures of the match. The two agree: a declarator that is recognised becomes an import, unless a name
that the import needs is not there, and nothing else does. So a statement has as many imports among its pieces as it
has declarators that are recognised, and it is a candidate if there are any.

## Contents

* `Require.Nameless`: a declarator that is recognised, but lacks a name that its import needs;
* `Load.isNamed`, `Load.Of.toImport_named`, `Load.Of.toImport_nameless`: when a load has an import;
* `Require.nameless_iff`, `Require.classify_outcome`: the three outcomes of a conversion;
* `Statement.countP_imports`, `Statement.isCandidate_eq`: the imports among the pieces of a statement;
* `Require.classify_agrees_with_detection`.
-/

namespace EsmLift

open Value

/-! ## Names that an import needs -/

/-- A declarator that one of the patterns accepts, where a name that is to be imported does not say what it is called:
the key of a property of a flat pattern, or the property that is accessed. -/
inductive Require.Nameless (d : Value) : Prop where
  | key {captures : Captures} {id p key : Value} {mark : Nat} {properties : List Value}
      (accepted : plain.run d = .ok (some captures)) (foundId : captures.lookup "id" = some id)
      (type : id.get? "type" = some (.text "ObjectPattern"))
      (found : id.get? "properties" = some (.list mark properties)) (mem : p ∈ properties)
      (foundKey : p.get? "key" = some key) (absent : key.get? "name" = none)
  | property {captures : Captures} {property : Value} (accepted : member.run d = .ok (some captures))
      (found : captures.lookup "property" = some property) (absent : property.get? "name" = none)

namespace Load

/-- Whether a load has the names that its import needs. -/
def isNamed : Load → Bool
  | whole _ _ => true
  | exports properties _ => properties.all Require.isKeyNamed
  | one _ property _ => (property.get? "name").isSome

variable {d : Value} {l : Load}

theorem Of.toImport_named (h : Load.Of d l) (hnamed : l.isNamed = true) :
    ∃ specifiers source, l.toImport = .ok (Syntax.importDeclaration specifiers source) := by
  cases h with
  | whole plain name => exact ⟨_, _, rfl⟩
  | exports plain type found simple =>
    rw [isNamed] at hnamed
    rw [toImport, Require.propertySpecifiers_eq simple, if_pos hnamed]
    exact ⟨_, _, rfl⟩
  | one member =>
    rw [isNamed] at hnamed
    rw [toImport, Require.specifier_eq member.parts.1, if_pos hnamed]
    exact ⟨_, _, rfl⟩

theorem Of.toImport_nameless (h : Load.Of d l) (hnamed : l.isNamed = false) :
    l.toImport = .error (.missingField "name") := by
  cases h with
  | whole plain name => cases hnamed
  | exports plain type found simple =>
    rw [isNamed] at hnamed
    rw [toImport, Require.propertySpecifiers_eq simple, hnamed]
    rfl
  | one member =>
    rw [isNamed] at hnamed
    rw [toImport, Require.specifier_eq member.parts.1, hnamed]
    rfl

/-- A load without one of its names comes from a nameless declarator. -/
theorem Of.nameless (h : Load.Of d l) (hnamed : l.isNamed = false) : Require.Nameless d := by
  cases h with
  | whole plain name => cases hnamed
  | exports plain type found simple =>
    obtain ⟨p, hp, hkey⟩ := List.all_eq_false.mp hnamed
    obtain ⟨key, foundKey, _⟩ := (simple p hp).key
    rw [Require.isKeyNamed, at_eq foundKey] at hkey
    exact .key (Require.plain_run_iff.mpr plain) rfl type found hp foundKey (by simpa using hkey)
  | one member =>
    rw [isNamed] at hnamed
    exact .property (Require.member_run_iff.mpr member) rfl (by simpa using hnamed)

end Load

namespace Require

/-- A nameless declarator is a load, and lacks a name. -/
theorem Nameless.exists_load {d : Value} (h : Nameless d) : ∃ l, Load.Of d l ∧ l.isNamed = false := by
  cases h with
  | @key _ _ p _ _ _ accepted foundId type found mem foundKey absent =>
    cases plain_run_iff.mp accepted with
    | intro declarator foundId' binding foundInit load =>
      cases foundId
      obtain ⟨mark, source, rfl⟩ := load.exists_source
      cases binding with
      | name hname =>
        rw [hname] at type
        simp at type
      | pattern _ found' simple =>
        cases found.symm.trans found'
        refine ⟨_, .exports (plain_run_iff.mp accepted) type found simple, List.all_eq_false.mpr ⟨p, mem, ?_⟩⟩
        rw [isKeyNamed, at_eq foundKey, absent]
        simp
  | property accepted found absent =>
    cases member_run_iff.mp accepted with
    | intro declarator foundId name foundInit accessType computed foundObject load foundProperty propertyName =>
      cases found
      obtain ⟨mark, source, rfl⟩ := load.exists_source
      refine ⟨_, .one (member_run_iff.mp accepted), ?_⟩
      rw [Load.isNamed, absent]
      rfl

theorem nameless_iff {d : Value} : Nameless d ↔ ∃ l, load? d = some l ∧ l.isNamed = false := by
  constructor
  · intro h
    obtain ⟨l, hl, hnamed⟩ := h.exists_load
    exact ⟨l, load?_iff.mpr hl, hnamed⟩
  · rintro ⟨l, hl, hnamed⟩
    exact (load?_iff.mp hl).nameless hnamed

/-! ## The outcome of a conversion -/

/-- **The three outcomes of a conversion**: a fault for a nameless declarator, an import for any other that is
recognised, and nothing for the rest. -/
theorem classify_outcome (d : Value) :
    (Nameless d ∧ isDeclarator d = true ∧ classify d = .error (.missingField "name")) ∨
      (¬Nameless d ∧ isDeclarator d = true ∧
        ∃ specifiers source, classify d = .ok (some (Syntax.importDeclaration specifiers source))) ∨
      (¬Nameless d ∧ isDeclarator d = false ∧ classify d = .ok none) := by
  rw [nameless_iff, isDeclarator_eq, classify_eq]
  cases hl : load? d with
  | none =>
    refine .inr (.inr ⟨?_, rfl, rfl⟩)
    rintro ⟨l, hsome, _⟩
    cases hsome
  | some l =>
    have hof := load?_iff.mp hl
    cases hnamed : l.isNamed with
    | false =>
      refine .inl ⟨⟨l, rfl, hnamed⟩, rfl, ?_⟩
      simp only [hof.toImport_nameless hnamed, Except.map]
    | true =>
      obtain ⟨specifiers, source, himport⟩ := hof.toImport_named hnamed
      refine .inr (.inl ⟨?_, rfl, specifiers, source, ?_⟩)
      · rintro ⟨l', hsome, hfalse⟩
        cases hsome
        rw [hnamed] at hfalse
        cases hfalse
      · simp only [himport, Except.map]

end Require

/-! ## The imports among the pieces of a statement -/

namespace Statement

/-- A declarator becomes an import exactly if it is recognised. -/
theorem Becomes.isA_import {e kind d n : Value} (h : Becomes e kind d n) :
    n.isA .importDeclaration = Require.isDeclarator d := by
  have hA := h.isA
  rw [Require.isDeclarator_eq]
  cases hl : Require.load? d with
  | none =>
    rw [hl] at hA
    exact isA_unique hA (by decide)
  | some l =>
    rw [hl] at hA
    exact hA

theorem countP_becomes {e kind : Value} {ds ns : List Value} (h : List.Forall₂ (Becomes e kind) ds ns) :
    ns.countP (·.isA .importDeclaration) = ds.countP Require.isDeclarator := by
  induction h with
  | nil => rfl
  | cons hn _ ih => rw [List.countP_cons, List.countP_cons, ih, hn.isA_import]

theorem declarators_eq {s declarations : Value} {ds : List Value} (hdecl : s.get? "declarations" = some declarations)
    (hds : declarations.items = .ok ds) : declarators s = ds := by
  rw [declarators, hdecl, Option.getD_some, hds]

/-- **There are as many imports as declarators that are recognised.** -/
theorem countP_imports {keepComments : Bool} {s : Value} {r : Replacement} (h : split keepComments s = .ok r) :
    r.nodes.countP (·.isA .importDeclaration) = (declarators s).countP Require.isDeclarator := by
  obtain ⟨kind, declarations, ds, _, hdecl, hds, hbecomes⟩ := split_becomes h
  rw [declarators_eq hdecl hds]
  exact countP_becomes hbecomes

/-- Whether a declaration is a candidate hangs on the number of its declarators that are recognised. -/
theorem isCandidate_eq {s : Value} (hs : s.isA .variableDeclaration = true) :
    isCandidate s = (((s.get? "declarations").getD (.newList [])).items.map fun ds =>
      decide (ds.countP Require.isDeclarator ≠ 0)) := by
  obtain ⟨m, fs, rfl, _⟩ := exists_of_get? (isA_iff.mp hs)
  rw [isCandidate_object, if_pos hs]
  unfold loadsAmong
  congr 1
  funext ds
  rw [Bool.eq_iff_iff, List.any_eq_true, decide_eq_true_iff, ← Nat.pos_iff_ne_zero, List.countP_pos_iff]

theorem isCandidate_iff {s : Value} (hs : s.isA .variableDeclaration = true) :
    isCandidate s = .ok true ↔ (declarators s).countP Require.isDeclarator ≠ 0 := by
  rw [isCandidate_eq hs, declarators]
  cases ((s.get? "declarations").getD (.newList [])).items with
  | error fault => simp [Except.map]
  | ok ds => simp [Except.map]

/-- A declaration that can be split can be asked. -/
theorem isCandidate_of_split {keepComments : Bool} {s : Value} {r : Replacement}
    (hs : s.isA .variableDeclaration = true) (h : split keepComments s = .ok r) :
    isCandidate s = .ok (decide (r.nodes.countP (·.isA .importDeclaration) ≠ 0)) := by
  obtain ⟨_, declarations, ds, _, hdecl, hds, _⟩ := split_becomes h
  rw [countP_imports h, isCandidate_eq hs, declarators_eq hdecl hds, hdecl, Option.getD_some, hds]
  rfl

end Statement

namespace Require

/-- **Detection and conversion agree.** The conversion of a declarator ends in a fault exactly if the declarator is
recognised and lacks a name, and the fault says so; otherwise it gives an import if the declarator is recognised, and
nothing if not. So the pieces of a statement have as many imports among them as there are declarators that are
recognised, and a declaration is a candidate exactly if that number is not zero. -/
theorem classify_agrees_with_detection :
    (∀ d, ((∃ fault, classify d = .error fault) ↔ Nameless d) ∧
      (∀ fault, classify d = .error fault → fault = .missingField "name") ∧
      (¬Nameless d → isDeclarator d = true →
        ∃ specifiers source, classify d = .ok (some (Syntax.importDeclaration specifiers source))) ∧
      (¬Nameless d → isDeclarator d = false → classify d = .ok none)) ∧
    (∀ keepComments s r, Statement.split keepComments s = .ok r →
      r.nodes.countP (·.isA .importDeclaration) = (Statement.declarators s).countP isDeclarator ∧
      (s.isA .variableDeclaration = true →
        Statement.isCandidate s = .ok (decide (r.nodes.countP (·.isA .importDeclaration) ≠ 0)))) ∧
    ∀ s, s.isA .variableDeclaration = true →
      (Statement.isCandidate s = .ok true ↔ (Statement.declarators s).countP isDeclarator ≠ 0) := by
  refine ⟨fun d => ?_, fun keepComments s r h => ?_, fun s hs => Statement.isCandidate_iff hs⟩
  · rcases classify_outcome d with ⟨hless, hdec, h⟩ | ⟨hnamed, hdec, ss, source, h⟩ | ⟨hnamed, hdec, h⟩
    · simp [h, hless]
    · simp [h, hnamed, hdec]
    · simp [h, hnamed, hdec]
  · exact ⟨Statement.countP_imports h, fun hs => Statement.isCandidate_of_split hs h⟩

/-- `{x: y, ?: z} = require("m")`, where the second key has no name. -/
def Sample.anonymous : Value :=
  Sample.unpack [Lift.Sample.property "x" "y", .new [("type", NodeType.property.value),
    ("key", .new [("type", NodeType.identifier.value)]), ("computed", .bool false), ("value", Lift.Sample.name "z")]]

theorem classify_agrees_with_detection_sample :
    Nameless Sample.anonymous ∧ classify Sample.anonymous = .error (.missingField "name") ∧
      isDeclarator Sample.mixed = true ∧
      (∃ specifiers source, classify Sample.mixed = .ok (some (Syntax.importDeclaration specifiers source))) ∧
      ∃ r, Statement.split true Lift.Sample.declaration = .ok r ∧
        r.nodes.countP (·.isA .importDeclaration)
          = (Statement.declarators Lift.Sample.declaration).countP isDeclarator ∧
        Statement.isCandidate Lift.Sample.declaration
          = .ok (decide (r.nodes.countP (·.isA .importDeclaration) ≠ 0)) := by
  obtain ⟨hdeclarators, hstatements, _⟩ := classify_agrees_with_detection
  have hmixed : ¬Nameless Sample.mixed := by
    intro h
    obtain ⟨fault, hfault⟩ := (hdeclarators Sample.mixed).1.mpr h
    cases hfault
  refine ⟨(hdeclarators Sample.anonymous).1.mp ⟨_, rfl⟩, rfl, by decide +kernel,
    (hdeclarators Sample.mixed).2.2.1 hmixed (by decide +kernel), _, rfl, ?_⟩
  have hsplit := hstatements true Lift.Sample.declaration _ rfl
  exact ⟨hsplit.1, hsplit.2 (by decide +kernel)⟩

end Require
end EsmLift
