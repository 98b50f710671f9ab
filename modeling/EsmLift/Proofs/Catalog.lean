import EsmLift.Proofs.Loads

/-!
# `Proofs.Catalog` — the patterns of the catalog accept exactly their grammar

The patterns for `id = require(source)` and `id = require(source).property` are put together from nested patterns of
fields, from tests over lists, and from other patterns used as tests. Here the same shapes are written down as a
grammar: predicates on values that say which fields are there and what stands in them, without running a pattern. A
match succeeds on the values of the grammar and on no others, binds its captures in order, and never ends in a fault.

## Contents

* `IsName`, `IsSimpleProperty`, `IsBinding`, `IsLoad`: the parts of a declarator;
* `PlainLoad`, `MemberLoad`: the two kinds of declarators, with what they bind;
* `Value.test_at`: a test of a field is a test of what stands there;
* `isBinding_iff`, `isLoad_iff`, `plainLoad_iff`, `memberLoad_iff`: the conditions on fields say the same;
* `catalog_accepts_grammar`.
-/

namespace EsmLift

namespace Require

/-! ## The grammar -/

/-- A name: an object of type `Identifier`. -/
def IsName (v : Value) : Prop := v.get? "type" = some (.text "Identifier")

/-- A property `key: value` of names, whose key is not computed. -/
structure IsSimpleProperty (v : Value) : Prop where
  type : v.get? "type" = some (.text "Property")
  key : ∃ k, v.get? "key" = some k ∧ IsName k
  computed : v.get? "computed" = some (.bool false)
  value : ∃ w, v.get? "value" = some w ∧ IsName w

/-- What can be bound: a name, or a flat pattern `{a, b: c}`. -/
inductive IsBinding (v : Value) : Prop where
  | name (h : IsName v)
  | pattern {mark : Nat} {properties : List Value} (type : v.get? "type" = some (.text "ObjectPattern"))
      (found : v.get? "properties" = some (.list mark properties))
      (simple : ∀ p ∈ properties, IsSimpleProperty p)

/-- A literal with a text. -/
structure IsSource (v : Value) : Prop where
  type : v.get? "type" = some (.text "Literal")
  value : ∃ s, v.get? "value" = some (.text s)

/-- A call `require(source)`, and its list of arguments. -/
inductive IsLoad (call : Value) : Value → Prop where
  | intro {callee source : Value} {mark : Nat} (type : call.get? "type" = some (.text "CallExpression"))
      (foundCallee : call.get? "callee" = some callee) (name : IsName callee)
      (loader : callee.get? "name" = some (.text "require"))
      (foundArguments : call.get? "arguments" = some (.list mark [source])) (literal : IsSource source) :
      IsLoad call (.list mark [source])

/-- A declarator `id = require(source)`, and what it binds. -/
inductive PlainLoad (d : Value) : Captures → Prop where
  | intro {id call sources : Value} (type : d.get? "type" = some (.text "VariableDeclarator"))
      (foundId : d.get? "id" = some id) (binding : IsBinding id)
      (foundInit : d.get? "init" = some call) (load : IsLoad call sources) :
      PlainLoad d [("id", id), ("sources", sources)]

/-- A declarator `id = require(source).property`, and what it binds. -/
inductive MemberLoad (d : Value) : Captures → Prop where
  | intro {id access call sources property : Value} (type : d.get? "type" = some (.text "VariableDeclarator"))
      (foundId : d.get? "id" = some id) (name : IsName id) (foundInit : d.get? "init" = some access)
      (accessType : access.get? "type" = some (.text "MemberExpression"))
      (computed : access.get? "computed" = some (.bool false))
      (foundObject : access.get? "object" = some call) (load : IsLoad call sources)
      (foundProperty : access.get? "property" = some property) (propertyName : IsName property) :
      MemberLoad d [("id", id), ("sources", sources), ("property", property)]

end Require

/-! ## From conditions on fields to the grammar -/

/-- A test that null does not pass asks for a field that is there. -/
theorem Value.test_at {b : Value → Bool} (hnull : b .null = false) {v : Value} {key : String} :
    b (v.at key) = true ↔ ∃ w, v.get? key = some w ∧ b w = true := by
  unfold Value.at
  cases v.get? key with
  | none => simp [hnull]
  | some w => simp

theorem Value.equal_false_iff {v : Value} : v.equal (.bool false) = true ↔ v = .bool false := by
  cases v <;> simp [Value.equal]

namespace Require

theorem isName_iff {v : Value} : v.isA .identifier = true ↔ IsName v := Value.isA_iff

/-- A name in a field. -/
theorem isName_at_iff {v : Value} {key : String} :
    (v.at key).isA .identifier = true ↔ ∃ w, v.get? key = some w ∧ IsName w := by
  rw [Value.test_at (b := (·.isA .identifier)) rfl]
  simp only [isName_iff]

/-- A truth value in a field is never mistaken for a number. -/
theorem computed_at_iff {v : Value} :
    (v.at "computed").equal (.bool false) = true ↔ v.get? "computed" = some (.bool false) := by
  rw [Value.test_at (b := (·.equal (.bool false))) rfl]
  simp [Value.equal_false_iff]

theorem isSimpleProperty_iff {v : Value} : simpleProperty.holds v = true ↔ IsSimpleProperty v := by
  rw [simpleProperty_holds, Bool.and_eq_true, Bool.and_eq_true, Bool.and_eq_true, Value.isA_iff (v := v),
    isName_at_iff, computed_at_iff, isName_at_iff]
  constructor
  · rintro ⟨type, key, computed, value⟩
    exact ⟨type, key, computed, value⟩
  · intro h
    exact ⟨h.type, h.key, h.computed, h.value⟩

/-- A list of simple properties in a field. -/
theorem properties_at_iff {v : Value} :
    isSimpleProperties (v.at "properties") = true ↔
      ∃ mark ps, v.get? "properties" = some (.list mark ps) ∧ ∀ p ∈ ps, IsSimpleProperty p := by
  rw [Value.test_at (b := isSimpleProperties) rfl]
  constructor
  · rintro ⟨w, hw, htest⟩
    cases w with
    | list mark ps =>
      refine ⟨mark, ps, hw, fun p hp => isSimpleProperty_iff.mp ?_⟩
      exact List.all_eq_true.mp htest p hp
    | _ => simp [isSimpleProperties] at htest
  · rintro ⟨mark, ps, hps, hsimple⟩
    refine ⟨_, hps, List.all_eq_true.mpr fun p hp => ?_⟩
    exact isSimpleProperty_iff.mpr (hsimple p hp)

theorem isBinding_iff {v : Value} : isTarget v = true ↔ IsBinding v := by
  rw [isTarget, Bool.or_eq_true, identifier_holds, flatPattern_holds, Bool.and_eq_true, isName_iff, Value.isA_iff,
    properties_at_iff]
  constructor
  · rintro (hname | ⟨type, mark, ps, found, simple⟩)
    · exact .name hname
    · exact .pattern type found simple
  · rintro (hname | ⟨type, found, simple⟩)
    · exact .inl hname
    · exact .inr ⟨type, _, _, found, simple⟩

theorem isSource_iff {v : Value} : isTextLiteral v = true ↔ IsSource v := by
  rw [isTextLiteral, Bool.and_eq_true, Value.isA_iff]
  constructor
  · rintro ⟨type, htext⟩
    refine ⟨type, ?_⟩
    split at htext
    · rename_i s hvalue
      exact ⟨s, hvalue⟩
    · simp at htext
  · rintro ⟨type, s, hvalue⟩
    refine ⟨type, ?_⟩
    rw [hvalue]

/-- A list of one source in a field. -/
theorem arguments_at_iff {v : Value} :
    isOneSource (v.at "arguments") = true ↔
      ∃ mark source, v.get? "arguments" = some (.list mark [source]) ∧ IsSource source := by
  rw [Value.test_at (b := isOneSource) rfl]
  constructor
  · rintro ⟨w, hw, htest⟩
    -- only a list of one item passes the test
    unfold isOneSource at htest
    split at htest
    · rename_i mark arg
      exact ⟨mark, arg, hw, isSource_iff.mp htest⟩
    · simp at htest
  · rintro ⟨mark, source, hw, hsource⟩
    exact ⟨_, hw, isSource_iff.mpr hsource⟩

theorem callee_at_iff {v : Value} :
    isLoader (v.at "callee") = true ↔
      ∃ c, v.get? "callee" = some c ∧ IsName c ∧ c.get? "name" = some (.text "require") := by
  rw [Value.test_at (b := isLoader) rfl]
  refine exists_congr fun c => and_congr_right fun _ => ?_
  rw [isLoader, Bool.and_eq_true, isName_iff, Value.test_at (b := (·.isText "require")) rfl]
  simp [Value.isText_iff]

/-- The call that loads a module, with the arguments that are captured. -/
theorem isLoad_iff {call sources : Value} :
    isCall call = true ∧ sources = call.at "arguments" ↔ IsLoad call sources := by
  rw [isCall, Bool.and_eq_true, Bool.and_eq_true, Value.isA_iff, callee_at_iff, arguments_at_iff]
  constructor
  · rintro ⟨⟨type, ⟨callee, foundCallee, name, loader⟩, mark, source, found, literal⟩, rfl⟩
    rw [Value.at_eq found]
    exact .intro type foundCallee name loader found literal
  · rintro ⟨type, foundCallee, name, loader, found, literal⟩
    exact ⟨⟨type, ⟨_, foundCallee, name, loader⟩, _, _, found, literal⟩, (Value.at_eq found).symm⟩

/-- A call that loads a module, in a field. -/
theorem load_at_iff {v : Value} {key : String} {sources : Value} :
    isCall (v.at key) = true ∧ sources = (v.at key).at "arguments" ↔
      ∃ call, v.get? key = some call ∧ IsLoad call sources := by
  rw [isLoad_iff]
  constructor
  · intro h
    obtain ⟨call, found, _⟩ := (Value.test_at (b := isCall) rfl).mp (isLoad_iff.mpr h).1
    rw [Value.at_eq found] at h
    exact ⟨call, found, h⟩
  · rintro ⟨call, found, h⟩
    rw [Value.at_eq found]
    exact h

theorem plainLoad_iff {d : Value} {captures : Captures} :
    isPlain d = true ∧ captures = [("id", d.at "id"), ("sources", (d.at "init").at "arguments")] ↔
      PlainLoad d captures := by
  rw [isPlain, Bool.and_eq_true, Bool.and_eq_true, Value.isA_iff]
  constructor
  · rintro ⟨⟨type, hid, hinit⟩, rfl⟩
    obtain ⟨id, foundId, hid⟩ := (Value.test_at (b := isTarget) (by decide)).mp hid
    obtain ⟨call, foundInit, load⟩ := load_at_iff.mp ⟨hinit, rfl⟩
    rw [Value.at_eq foundId]
    exact .intro type foundId (isBinding_iff.mp hid) foundInit load
  · rintro ⟨type, foundId, binding, foundInit, load⟩
    obtain ⟨hcall, hsources⟩ := load_at_iff.mpr ⟨_, foundInit, load⟩
    rw [Value.at_eq foundId, hsources]
    exact ⟨⟨type, isBinding_iff.mpr binding, hcall⟩, rfl⟩

theorem memberLoad_iff {d : Value} {captures : Captures} :
    isMember d = true ∧ captures = [("id", d.at "id"), ("sources", ((d.at "init").at "object").at "arguments"),
      ("property", (d.at "init").at "property")] ↔ MemberLoad d captures := by
  rw [isMember, Bool.and_eq_true, Bool.and_eq_true, Value.isA_iff, isName_at_iff]
  constructor
  · rintro ⟨⟨type, ⟨id, foundId, name⟩, hinit⟩, rfl⟩
    obtain ⟨access, foundInit, haccess⟩ := (Value.test_at (b := isAccess) rfl).mp hinit
    simp only [isAccess, Bool.and_eq_true, Value.isA_iff, computed_at_iff] at haccess
    obtain ⟨accessType, computed, hobject, hproperty⟩ := haccess
    obtain ⟨call, foundObject, load⟩ := load_at_iff.mp ⟨hobject, rfl⟩
    obtain ⟨property, foundProperty, propertyName⟩ := isName_at_iff.mp (Value.isA_iff.mpr hproperty)
    rw [Value.at_eq foundId, Value.at_eq foundInit, Value.at_eq foundProperty]
    exact .intro type foundId name foundInit accessType computed foundObject load foundProperty propertyName
  · rintro ⟨type, foundId, name, foundInit, accessType, computed, foundObject, load, foundProperty, propertyName⟩
    obtain ⟨hcall, hsources⟩ := load_at_iff.mpr ⟨_, foundObject, load⟩
    rw [Value.at_eq foundId, Value.at_eq foundInit, Value.at_eq foundProperty, hsources]
    refine ⟨⟨type, ⟨_, foundId, name⟩, ?_⟩, rfl⟩
    simp only [isAccess, Bool.and_eq_true, Value.isA_iff, computed_at_iff]
    refine ⟨accessType, computed, hcall, ?_⟩
    rw [Value.at_eq foundProperty]
    exact propertyName

/-! ## The catalog -/

/-- An answer that hangs on one condition, with the captures of a grammar. -/
theorem accepts_of_run {p : Pattern} {d : Value} {b : Bool} {found : Captures} {G : Captures → Prop}
    (hrun : p.run d = .ok (if b then some found else none))
    (hG : ∀ captures, b = true ∧ captures = found ↔ G captures) :
    ∃ outcome, p.run d = .ok outcome ∧ ∀ captures, outcome = some captures ↔ G captures := by
  refine ⟨_, hrun, fun captures => ?_⟩
  rw [← hG]
  cases b with
  | false => simp
  | true => simp [eq_comm]

/-- **The catalog accepts exactly its grammar.** On every value the two patterns end without a fault. They succeed
exactly on the declarators of the grammar, and bind the identifier, the arguments of the call and the property in
this order; no declarator is of both kinds. -/
theorem catalog_accepts_grammar (d : Value) :
    (∃ outcome, plain.run d = .ok outcome ∧ ∀ captures, outcome = some captures ↔ PlainLoad d captures) ∧
      (∃ outcome, member.run d = .ok outcome ∧ ∀ captures, outcome = some captures ↔ MemberLoad d captures) ∧
      ∀ captures captures', PlainLoad d captures → ¬MemberLoad d captures' := by
  refine ⟨accepts_of_run (plain_run d) fun _ => plainLoad_iff,
    accepts_of_run (member_run d) fun _ => memberLoad_iff, ?_⟩
  -- the right side of a declarator has one type only
  rintro _ _ ⟨_, _, _, foundCall, load⟩ ⟨_, _, _, foundAccess, accessType, _, _, _, _, _⟩
  obtain rfl := Option.some.inj (foundCall.symm.trans foundAccess)
  obtain ⟨callType, _, _, _, _, _⟩ := load
  rw [callType] at accessType
  simp at accessType

end Require
end EsmLift
