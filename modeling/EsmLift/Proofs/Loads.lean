import EsmLift.Proofs.Recognition

/-!
# `Proofs.Loads` — a declarator that loads a module, read by its fields

The grammar binds parts of a declarator by capture names; here the same parts are read off the declarator
directly, field by field. A **load** says what is loaded: the whole module under one name, some of its exports by
a flat pattern, or one export by a property. The import that a declarator stands for is a function of its load
(`classify_eq`), and matching never ends in a fault.

## Contents

* `Require.node_run`, `flatPattern_holds`, `plain_holds`, `member_holds`: the grammar as conditions on fields;
* `call_run`, `plain_run`, `member_run`: the captures as fields;
* `Load`, `load?`, `Load.toImport`, `classify_eq`, `statement_eq`.
-/

namespace EsmLift

/-- The value of a field, null if it is absent or if the value is no object. -/
def Value.at (v : Value) (key : String) : Value := (v.get? key).getD .null

theorem Value.at_object (m : Nat) (fs : Fields) (key : String) :
    (Value.object m fs).at key = (fs.lookup key).getD .null := rfl

theorem Value.at_eq {v w : Value} {key : String} (h : v.get? key = some w) : v.at key = w := by
  rw [Value.at, h, Option.getD_some]

/-- What a node has a field of is an object. -/
theorem Value.exists_of_get? {v w : Value} {key : String} (h : v.get? key = some w) :
    ∃ m fs, v = .object m fs ∧ fs.lookup key = some w := by
  cases v with
  | object m fs => exact ⟨m, fs, rfl, h⟩
  | _ => cases h

namespace Require

/-! ## The grammar as conditions on fields -/

theorem literal_text_run (s : String) (v : Value) :
    (Pattern.literal (.text s)).run v = .ok (if v.isText s then some [] else none) := by
  cases v <;> rfl

/-- One field that is matched by a test without fault, in front of others. -/
theorem runFields_cons {p : Pattern} {b : Value → Bool} {caps : Value → Captures}
    (hp : ∀ v, p.run v = .ok (if b v then some (caps v) else none)) (key : String)
    (rest : List (String × Pattern)) (m : Nat) (fs : Fields) (bound : Captures) (hnull : b .null = false) :
    Pattern.runFields ((key, p) :: rest) fs bound =
      if b ((Value.object m fs).at key) then
        bound.merge (caps ((Value.object m fs).at key)) >>= Pattern.runFields rest fs
      else .ok none := by
  rw [Value.at_object, Pattern.runFields]
  rcases hl : fs.lookup key with _ | w
  · simp [hnull]
  · simp only [hp w, Option.getD_some]
    by_cases hb : b w = true
    · simp only [hb, if_true]
      cases bound.merge (caps w) <;> rfl
    · simp [hb]

/-- A node pattern asks for the type first. -/
theorem node_run (t : NodeType) (subs : List (String × Pattern)) (m : Nat) (fs : Fields) :
    (node t subs).run (.object m fs) =
      if (Value.object m fs).isA t then Pattern.runFields subs fs [] else .ok none := by
  have htype : ((Value.object m fs).at "type").isText t.tag = (Value.object m fs).isA t := by
    unfold Value.isA Value.hasType Value.at
    cases (Value.object m fs).get? "type" <;> rfl
  show Pattern.runFields (("type", .literal (.text t.tag)) :: subs) fs [] = _
  rw [runFields_cons (literal_text_run t.tag) "type" subs m fs [] rfl, htype]
  rfl

/-- A node without further fields. -/
theorem node_nil_run (t : NodeType) (v : Value) : (node t []).run v = .ok (if v.isA t then some [] else none) := by
  cases v with
  | object m fs => rw [node_run]; split <;> rfl
  | _ => rfl

/-- A pattern that never ends in a fault holds where it matches. -/
theorem holds_of_run {p : Pattern} {v : Value} {b : Bool} {c : Captures}
    (h : p.run v = .ok (if b then some c else none)) : p.holds v = b := by
  rw [Pattern.holds, h]
  cases b <;> rfl

theorem identifier_holds (v : Value) : identifier.holds v = v.isA .identifier :=
  holds_of_run (node_nil_run .identifier v)

/-- The callee of a call that loads a module. -/
def isLoader (v : Value) : Bool := v.isA .identifier && (v.at "name").isText "require"

theorem loader_run (v : Value) :
    (node .identifier [("name", .literal (.text "require"))]).run v
      = .ok (if isLoader v then some [] else none) := by
  cases v with
  | object m fs =>
    rw [node_run, runFields_cons (literal_text_run _) _ _ m fs _ rfl]
    unfold isLoader
    by_cases h : (Value.object m fs).isA .identifier = true
    · simp only [h, if_true, Bool.true_and]
      split <;> rfl
    · simp [h]
  | _ => rfl

/-- Whether a value is a call `require(source)`. -/
def isCall (v : Value) : Bool :=
  v.isA .callExpression && (isLoader (v.at "callee") && isOneSource (v.at "arguments"))

/-- A capture of what passes a test. -/
theorem capture_test_run (name : String) (b : Value → Bool) (v : Value) :
    (Pattern.capture name (.test (Test.ofBool b))).run v = .ok (if b v then some [(name, v)] else none) := by
  simp only [Pattern.run, Test.ofBool]
  cases b v <;> rfl

/-- A call binds its arguments, and matching it never ends in a fault. -/
theorem call_run (v : Value) :
    call.run v = .ok (if isCall v then some [("sources", v.at "arguments")] else none) := by
  cases v with
  | object m fs =>
    rw [call, node_run, runFields_cons loader_run _ _ m fs _ rfl]
    simp only [isCall]
    by_cases ht : (Value.object m fs).isA .callExpression = true
    · by_cases hc : isLoader ((Value.object m fs).at "callee") = true
      · simp only [ht, hc, if_true, Bool.true_and]
        show Pattern.runFields _ fs [] = _
        rw [runFields_cons (capture_test_run "sources" isOneSource) _ _ m fs _ rfl]
        split <;> rfl
      · simp [ht, hc]
    · simp [ht]
  | _ => rfl

/-- Whether a value can stand on the left of a load: a name or a flat pattern. -/
def isTarget (v : Value) : Bool := identifier.holds v || flatPattern.holds v

/-- Whether a value is a declarator `id = require(source)`. -/
def isPlain (d : Value) : Bool := d.isA .variableDeclarator && (isTarget (d.at "id") && isCall (d.at "init"))

theorem plain_run (d : Value) :
    plain.run d
      = .ok (if isPlain d then some [("id", d.at "id"), ("sources", (d.at "init").at "arguments")] else none) := by
  cases d with
  | object m fs =>
    have hid := capture_test_run "id" isTarget
    unfold isTarget at hid
    rw [plain, node_run, runFields_cons hid _ _ m fs _ rfl]
    simp only [isPlain, isTarget]
    by_cases ht : (Value.object m fs).isA .variableDeclarator = true
    · by_cases hi : (identifier.holds ((Value.object m fs).at "id")
          || flatPattern.holds ((Value.object m fs).at "id")) = true
      · simp only [ht, hi, if_true, Bool.true_and]
        show Pattern.runFields _ fs [("id", (Value.object m fs).at "id")] = _
        rw [runFields_cons call_run _ _ m fs _ rfl]
        split <;> rfl
      · simp [ht, hi]
    · simp [ht]
  | _ => rfl

/-- The right side `require(source).property` of a declarator. -/
def isAccess (v : Value) : Bool :=
  v.isA .memberExpression && ((v.at "computed").equal (.bool false) && (isCall (v.at "object") &&
    (v.at "property").isA .identifier))

/-- Whether a value is a declarator `id = require(source).property`. -/
def isMember (d : Value) : Bool :=
  d.isA .variableDeclarator && ((d.at "id").isA .identifier && isAccess (d.at "init"))

theorem access_run (v : Value) :
    (node .memberExpression [("computed", .literal (.bool false)), ("object", call),
      ("property", .capture "property" (node .identifier []))]).run v
      = .ok (if isAccess v then some [("sources", (v.at "object").at "arguments"), ("property", v.at "property")]
          else none) := by
  have hprop (w : Value) : (Pattern.capture "property" (node .identifier [])).run w
      = .ok (if w.isA .identifier then some [("property", w)] else none) := by
    simp only [Pattern.run, node_nil_run]
    cases w.isA .identifier <;> rfl
  have hcomp (w : Value) : (Pattern.literal (.bool false)).run w
      = .ok (if w.equal (.bool false) then some [] else none) := rfl
  cases v with
  | object m fs =>
    rw [node_run, runFields_cons hcomp _ _ m fs _ rfl]
    simp only [isAccess]
    by_cases ht : (Value.object m fs).isA .memberExpression = true
    · by_cases hc : ((Value.object m fs).at "computed").equal (.bool false) = true
      · simp only [ht, hc, if_true, Bool.true_and]
        show Pattern.runFields _ fs [] = _
        rw [runFields_cons call_run _ _ m fs _ rfl]
        by_cases ho : isCall ((Value.object m fs).at "object") = true
        · simp only [ho, if_true, Bool.true_and]
          show Pattern.runFields _ fs [("sources", ((Value.object m fs).at "object").at "arguments")] = _
          rw [runFields_cons hprop _ _ m fs _ rfl]
          split <;> rfl
        · simp [ho]
      · simp [ht, hc]
    · simp [ht]
  | _ => rfl

theorem member_run (d : Value) :
    member.run d
      = .ok (if isMember d then some [("id", d.at "id"), ("sources", ((d.at "init").at "object").at "arguments"),
          ("property", (d.at "init").at "property")] else none) := by
  have hid (w : Value) : (Pattern.capture "id" identifier).run w
      = .ok (if w.isA .identifier then some [("id", w)] else none) := by
    simp only [Pattern.run, identifier, node_nil_run]
    cases w.isA .identifier <;> rfl
  cases d with
  | object m fs =>
    rw [member, node_run, runFields_cons hid _ _ m fs _ rfl]
    simp only [isMember]
    by_cases ht : (Value.object m fs).isA .variableDeclarator = true
    · by_cases hi : ((Value.object m fs).at "id").isA .identifier = true
      · simp only [ht, hi, if_true, Bool.true_and]
        show Pattern.runFields _ fs [("id", (Value.object m fs).at "id")] = _
        rw [runFields_cons access_run _ _ m fs _ rfl]
        split <;> rfl
      · simp [ht, hi]
    · simp [ht]
  | _ => rfl

theorem plain_holds (d : Value) : plain.holds d = isPlain d := holds_of_run (plain_run d)

theorem member_holds (d : Value) : member.holds d = isMember d := holds_of_run (member_run d)

theorem flatPattern_holds (v : Value) :
    flatPattern.holds v = (v.isA .objectPattern && isSimpleProperties (v.at "properties")) := by
  have hprops (w : Value) : (Pattern.test (Test.ofBool isSimpleProperties)).run w
      = .ok (if isSimpleProperties w then some [] else none) := rfl
  cases v with
  | object m fs =>
    refine holds_of_run (c := []) ?_
    rw [flatPattern, node_run, runFields_cons hprops _ _ m fs _ rfl]
    by_cases ht : (Value.object m fs).isA .objectPattern = true
    · by_cases hp : isSimpleProperties ((Value.object m fs).at "properties") = true
      · simp only [ht, hp, if_true]
        rfl
      · simp [ht, hp]
    · simp [ht]
  | _ => rfl

theorem simpleProperty_holds (v : Value) :
    simpleProperty.holds v = (v.isA .property && ((v.at "key").isA .identifier &&
      ((v.at "computed").equal (.bool false) && (v.at "value").isA .identifier))) := by
  have hname (w : Value) : identifier.run w = .ok (if w.isA .identifier then some [] else none) :=
    node_nil_run .identifier w
  have hcomp (w : Value) : (Pattern.literal (.bool false)).run w
      = .ok (if w.equal (.bool false) then some [] else none) := rfl
  cases v with
  | object m fs =>
    refine holds_of_run (c := []) ?_
    rw [simpleProperty, node_run, runFields_cons hname _ _ m fs _ rfl]
    by_cases ht : (Value.object m fs).isA .property = true
    · by_cases hk : ((Value.object m fs).at "key").isA .identifier = true
      · simp only [ht, hk, if_true, Bool.true_and]
        show Pattern.runFields _ fs [] = _
        rw [runFields_cons hcomp _ _ m fs _ rfl]
        by_cases hc : ((Value.object m fs).at "computed").equal (.bool false) = true
        · simp only [hc, if_true, Bool.true_and]
          show Pattern.runFields _ fs [] = _
          rw [runFields_cons hname _ _ m fs _ rfl]
          by_cases hv : ((Value.object m fs).at "value").isA .identifier = true
          · simp only [hv, if_true]
            rfl
          · simp [hv]
        · simp [hc]
      · simp [ht, hk]
    · simp [ht]
  | _ => rfl

/-! ## Loads -/

/-- The first item of a list. -/
def firstOf : Value → Value
  | .list _ (s :: _) => s
  | _ => .null

/-- The items of a list. -/
def listed : Value → List Value
  | .list _ xs => xs
  | _ => []

/-- The module named by a call. -/
def moduleOf (call : Value) : Value := firstOf (call.at "arguments")

end Require

/-- What a declarator loads. -/
inductive Load where
  /-- The module as a whole, under one name. -/
  | whole (id source : Value)
  /-- Exports of the module, by the properties of a pattern. -/
  | exports (properties : List Value) (source : Value)
  /-- One export of the module. -/
  | one (id property source : Value)

namespace Require

/-- What a declarator loads, if it loads a module. -/
def load? (d : Value) : Option Load :=
  if isPlain d then
    some (if (d.at "id").isA .objectPattern then
      .exports (listed ((d.at "id").at "properties")) (moduleOf (d.at "init"))
    else .whole (d.at "id") (moduleOf (d.at "init")))
  else if isMember d then
    some (.one (d.at "id") ((d.at "init").at "property") (moduleOf ((d.at "init").at "object")))
  else none

theorem isDeclarator_eq (d : Value) : isDeclarator d = (load? d).isSome := by
  rw [isDeclarator, plain_holds, member_holds, load?]
  cases isPlain d <;> cases isMember d <;> rfl

end Require

/-- The import of a load. -/
def Load.toImport : Load → Except Fault Value
  | whole id source => .ok (Syntax.importDeclaration [Syntax.importDefaultSpecifier id] source)
  | exports properties source =>
    (Require.propertySpecifiers properties).map fun specifiers =>
      Syntax.importDeclaration (Require.defaultsFirst specifiers) source
  | one id property source =>
    (Require.specifier id property).map fun s => Syntax.importDeclaration [s] source

namespace Require

/-- A flat pattern has a list of properties. -/
theorem properties_of_target {v : Value} (h : isTarget v = true) (hv : v.isA .objectPattern = true) :
    ∃ m ps, v.get? "properties" = some (.list m ps) ∧ ps.all simpleProperty.holds = true := by
  have hid : identifier.holds v = false := by
    rw [identifier_holds]; exact Value.isA_unique hv (by decide)
  rw [isTarget, hid, Bool.false_or, flatPattern_holds, hv, Bool.true_and, Value.at] at h
  cases hp : v.get? "properties" with
  | none => rw [hp] at h; exact absurd h (by decide)
  | some w =>
    rw [hp, Option.getD_some] at h
    cases w with
    | list m ps => exact ⟨m, ps, rfl, h⟩
    | _ => exact absurd h (by simp [isSimpleProperties])

theorem require_of_get? {v w : Value} {key : String} (h : v.get? key = some w) : v.require key = .ok w := by
  obtain ⟨m, fs, rfl, hl⟩ := Value.exists_of_get? h
  simp only [Value.require, hl]

/-- A property called `default` is imported like the module as a whole. -/
theorem ofMember_eq (m : Captures) :
    ofMember m = (specifier (captured m "id") (captured m "property")).map fun s =>
      Syntax.importDeclaration [s] (source m) := by
  unfold ofMember specifier
  dsimp only
  cases (captured m "property").require "name" with
  | error fault => rfl
  | ok name =>
    show (if isDefault name then _ else _) = Except.map _ (if isDefault name then _ else _)
    by_cases hd : isDefault name = true
    · rw [if_pos hd, if_pos hd]
      rfl
    · rw [if_neg hd, if_neg hd]
      show ((if isDefault name then _ else _) >>= fun s => _) = _
      rw [if_neg hd]
      rfl

/-- The import of a declarator is the import of its load. -/
theorem classify_eq (d : Value) :
    classify d = match load? d with
      | some l => l.toImport.map some
      | none => .ok none := by
  unfold classify load?
  rw [plain_run, member_run]
  by_cases hp : isPlain d = true
  · simp only [hp, if_true]
    show some <$> ofPlain _ = _
    have ht : isTarget (d.at "id") = true := by
      simp only [isPlain, Bool.and_eq_true] at hp; exact hp.2.1
    unfold ofPlain
    show some <$> (if (d.at "id").isA .objectPattern then _ else _) = _
    by_cases ho : (d.at "id").isA .objectPattern = true
    · obtain ⟨m, ps, hps, _⟩ := properties_of_target ht ho
      rw [if_pos ho, if_pos ho, Value.at_eq hps]
      show some <$> ((d.at "id").require "properties" >>= fun properties => _) = _
      rw [require_of_get? hps]
      show some <$> (propertySpecifiers ps >>= fun specifiers => _) = (propertySpecifiers ps |>.map _).map some
      cases propertySpecifiers ps <;> rfl
    · rw [if_neg ho, if_neg ho]
      rfl
  · simp only [hp]
    by_cases hm : isMember d = true
    · simp only [hm, if_true]
      show some <$> ofMember _ = _
      rw [ofMember_eq]
      show some <$> (specifier (d.at "id") ((d.at "init").at "property")).map _
        = ((specifier (d.at "id") ((d.at "init").at "property")).map _).map some
      cases specifier (d.at "id") ((d.at "init").at "property") <;> rfl
    · simp only [hm]
      rfl

/-- The statement of a declarator: the import of its load, or a declaration of its own. -/
theorem statement_eq (kind d : Value) :
    statement kind d = match load? d with
      | some l => l.toImport
      | none => .ok (Syntax.variableDeclaration kind [d]) := by
  unfold statement
  rw [classify_eq]
  cases load? d with
  | none => rfl
  | some l =>
    simp only
    cases l.toImport <;> rfl

end Require
end EsmLift
