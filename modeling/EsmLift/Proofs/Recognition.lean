import EsmLift.Proofs.Compounds
import EsmLift.Statement.Split

/-!
# `Proofs.Recognition` — what decides whether a declarator loads a module

Recognition looks at types, names and a few fields, never at marks, at metadata or at what is inside a program
node. A function on values that keeps all this is **faithful**: it commutes with every pattern of the grammar, so
a declarator or a statement is recognised before exactly if it is recognised after.

Two faithful functions matter here. `Value.erase` forgets the marks. `Value.skeleton` forgets the marks, the
metadata and the contents of programs; values with one skeleton are recognised alike.

## Contents

* `Faithful`, `Pattern.Follows`: patterns that commute with a faithful function;
* `isDeclarator_faithful`, `isCandidate_faithful`.
-/

namespace EsmLift

/-! ## Types of nodes -/

theorem NodeType.tag_injective {s t : NodeType} (h : s.tag = t.tag) : s = t := by
  cases s <;> cases t <;> first | rfl | exact absurd h (by decide)

theorem Value.isText_iff {v : Value} {s : String} : v.isText s = true ↔ v = .text s := by
  cases v <;> simp [Value.isText]

theorem Value.isA_iff {v : Value} {t : NodeType} : v.isA t = true ↔ v.get? "type" = some (.text t.tag) := by
  unfold Value.isA Value.hasType
  cases v.get? "type" with
  | none => simp
  | some w => simpa using Value.isText_iff

/-- A node has one type only. -/
theorem Value.isA_eq (v : Value) (t : NodeType) : v.isA t = (v.get? "type").any (·.isText t.tag) := by
  unfold Value.isA Value.hasType
  cases v.get? "type" <;> rfl

theorem Value.isA_congr {v w : Value} (h : v.get? "type" = w.get? "type") (t : NodeType) : v.isA t = w.isA t := by
  rw [Value.isA_eq, Value.isA_eq, h]

theorem Value.isA_unique {v : Value} {s t : NodeType} (h : v.isA s = true) (hne : s ≠ t) : v.isA t = false := by
  cases ht : v.isA t with
  | false => rfl
  | true =>
    have heq := (Value.isA_iff.mp h).symm.trans (Value.isA_iff.mp ht)
    exact absurd (NodeType.tag_injective (Value.text.inj (Option.some.inj heq))) hne

/-! ## Faithful functions -/

/-- A function on values that keeps what recognition looks at: leaves, the shape of lists, types, and the fields
of objects other than metadata. Of a program only the type has to stay. -/
structure Faithful (f : Value → Value) : Prop where
  leaf : ∀ v, v.isCompound = false → f v = v
  list : ∀ m xs, ∃ n, f (.list m xs) = .list n (xs.map f)
  tuple : ∀ xs, f (.tuple xs) = .tuple (xs.map f)
  object : ∀ m fs, ∃ n gs, f (.object m fs) = .object n gs ∧
    gs.lookup "type" = (fs.lookup "type").map f ∧
    ((Value.object m fs).isA .program = false →
      ∀ key, Syntax.metadataKeys.contains key = false → gs.lookup key = (fs.lookup key).map f)

/-- Captures whose values were changed. -/
def Captures.through (f : Value → Value) (m : Captures) : Captures := m.map fun c => (c.1, f c.2)

/-- The match of a pattern commutes with a function on values. -/
def Pattern.Follows (f : Value → Value) (p : Pattern) : Prop :=
  ∀ v, p.run (f v) = (p.run v).map (Option.map (Captures.through f))

namespace Faithful

variable {f : Value → Value} (hf : Faithful f)

include hf

/-- The type stays where it is. -/
theorem get?_type (v : Value) : (f v).get? "type" = (v.get? "type").map f := by
  cases v with
  | list m xs => obtain ⟨n, h⟩ := hf.list m xs; rw [h]; rfl
  | tuple xs => rw [hf.tuple xs]; rfl
  | object m fs => obtain ⟨n, gs, h, ht, _⟩ := hf.object m fs; rw [h]; exact ht
  | _ => rw [hf.leaf _ rfl]; rfl

theorem isText (v : Value) (s : String) : (f v).isText s = v.isText s := by
  cases v with
  | list m xs => obtain ⟨n, h⟩ := hf.list m xs; rw [h]; rfl
  | tuple xs => rw [hf.tuple xs]; rfl
  | object m fs => obtain ⟨n, gs, h, _⟩ := hf.object m fs; rw [h]; rfl
  | _ => rw [hf.leaf _ rfl]

theorem isA (v : Value) (t : NodeType) : (f v).isA t = v.isA t := by
  unfold Value.isA Value.hasType
  rw [hf.get?_type v]
  cases v.get? "type" with
  | none => rfl
  | some w => exact hf.isText w t.tag

/-- Fields other than metadata stay where they are, outside programs. -/
theorem get? {v : Value} (hv : v.isA .program = false) {key : String}
    (hk : Syntax.metadataKeys.contains key = false) : (f v).get? key = (v.get? key).map f := by
  cases v with
  | list m xs => obtain ⟨n, h⟩ := hf.list m xs; rw [h]; rfl
  | tuple xs => rw [hf.tuple xs]; rfl
  | object m fs => obtain ⟨n, gs, h, _, hg⟩ := hf.object m fs; rw [h]; exact hg hv key hk
  | _ => rw [hf.leaf _ rfl]; rfl

end Faithful

/-! ## Patterns -/

namespace Pattern

variable {f : Value → Value}

theorem merge_through (f : Value → Value) (extra bound : Captures) :
    (bound.through f).merge (extra.through f) = (bound.merge extra).map (Captures.through f) := by
  induction extra generalizing bound with
  | nil => rfl
  | cons c rest ih =>
    obtain ⟨name, v⟩ := c
    have hany : (bound.through f).any (·.1 == name) = bound.any (·.1 == name) := by
      simp [Captures.through, List.any_map, Function.comp_def]
    have happ : bound.through f ++ [(name, f v)] = (bound ++ [(name, v)]).through f := by
      simp [Captures.through]
    show (if (bound.through f).any (·.1 == name) then _ else _) = _
    rw [hany, Captures.merge]
    split
    · rfl
    · rw [happ]; exact ih _

/-- The fields of an object are matched alike if each of them is. -/
theorem runFields_through {fs gs : Fields} (subs : List (String × Pattern))
    (hsubs : ∀ s ∈ subs, s.2.Follows f ∧ gs.lookup s.1 = (fs.lookup s.1).map f) (bound : Captures) :
    runFields subs gs (bound.through f) = (runFields subs fs bound).map (Option.map (Captures.through f)) := by
  induction subs generalizing bound with
  | nil => rfl
  | cons s rest ih =>
    obtain ⟨key, p⟩ := s
    obtain ⟨⟨hp, hl⟩, hrest⟩ := List.forall_mem_cons.mp hsubs
    simp only [runFields, hl]
    cases fs.lookup key with
    | none => rfl
    | some v =>
      simp only [Option.map_some, hp v]
      cases p.run v with
      | error fault => rfl
      | ok r =>
        cases r with
        | none => rfl
        | some captures =>
          simp only [Except.map, Option.map_some, merge_through]
          cases bound.merge captures with
          | error fault => rfl
          | ok bound' => exact ih hrest bound'

theorem follows_capture {p : Pattern} (hp : p.Follows f) (name : String) : (capture name p).Follows f := by
  intro v
  simp only [run, hp v]
  cases p.run v with
  | error fault => rfl
  | ok r =>
    cases r with
    | none => rfl
    | some captures =>
      have h : Captures.merge [(name, f v)] (captures.through f)
          = (Captures.merge [(name, v)] captures).map (Captures.through f) := merge_through f captures [(name, v)]
      simp only [Except.map, Option.map_some, h]
      cases Captures.merge [(name, v)] captures <;> rfl

theorem follows_test {p : Value → Bool} (hp : ∀ v, p (f v) = p v) : (test (Test.ofBool p)).Follows f := by
  intro v
  simp only [run, Test.ofBool, hp v]
  cases p v <;> rfl

theorem Follows.holds {p : Pattern} (hp : p.Follows f) (v : Value) : p.holds (f v) = p.holds v := by
  simp only [Pattern.holds, hp v]
  cases p.run v with
  | error fault => rfl
  | ok r => cases r <;> rfl

variable (hf : Faithful f)

include hf

/-- Literals without parts are matched alike. -/
theorem follows_leaf {e : Value} (he : e.isCompound = false) : (literal e).Follows f := by
  intro v
  have h : (f v).equal e = v.equal e := by
    cases v with
    | list m xs => obtain ⟨n, h⟩ := hf.list m xs; rw [h]; cases e <;> first | rfl | cases he
    | tuple xs => rw [hf.tuple xs]; cases e <;> first | rfl | cases he
    | object m fs => obtain ⟨n, gs, h, _⟩ := hf.object m fs; rw [h]; cases e <;> first | rfl | cases he
    | _ => rw [hf.leaf _ rfl]
  simp only [run, h]
  cases v.equal e <;> rfl

/-- Nodes of a type other than `Program` are matched alike if their fields are, and if none of these is
metadata. -/
theorem follows_node {t : NodeType} (ht : t ≠ .program) (subs : List (String × Pattern))
    (hsubs : ∀ s ∈ subs, s.2.Follows f ∧ Syntax.metadataKeys.contains s.1 = false) :
    (Require.node t subs).Follows f := by
  intro v
  cases v with
  | list m xs => obtain ⟨n, h⟩ := hf.list m xs; rw [h]; rfl
  | tuple xs => rw [hf.tuple xs]; rfl
  | object m fs =>
    obtain ⟨n, gs, h, htype, hother⟩ := hf.object m fs
    rw [h]
    show runFields (("type", literal t.value) :: subs) gs (Captures.through f []) = _
    by_cases hprog : (Value.object m fs).isA .program = true
    · -- a program has another type, so nothing but the type is looked at
      have hl : fs.lookup "type" = some (.text "Program") := Value.isA_iff.mp hprog
      have hne : (Value.text "Program").equal t.value = false := by
        cases t <;> first | exact absurd rfl ht | decide
      simp only [Require.node, run, runFields, htype, hl, Option.map_some, hf.leaf (.text "Program") rfl, hne]
      rfl
    · refine runFields_through _ ?_ []
      refine List.forall_mem_cons.mpr ⟨⟨follows_leaf hf rfl, htype⟩, fun s hs => ?_⟩
      exact ⟨(hsubs s hs).1, hother (by simpa using hprog) s.1 (hsubs s hs).2⟩
  | _ => rw [hf.leaf _ rfl]; rfl

end Pattern

/-! ## The grammar of module loads -/

namespace Require

variable {f : Value → Value} (hf : Faithful f)

include hf

theorem follows_identifier : identifier.Follows f :=
  Pattern.follows_node hf (by decide) [] (by simp)

theorem follows_simpleProperty : simpleProperty.Follows f := by
  refine Pattern.follows_node hf (by decide) _ ?_
  simp only [List.forall_mem_cons, List.not_mem_nil, false_imp_iff, implies_true, and_true]
  exact ⟨⟨follows_identifier hf, by decide⟩, ⟨Pattern.follows_leaf hf rfl, by decide⟩,
    ⟨follows_identifier hf, by decide⟩⟩

theorem isSimpleProperties_faithful (v : Value) : isSimpleProperties (f v) = isSimpleProperties v := by
  cases v with
  | list m xs =>
    obtain ⟨n, h⟩ := hf.list m xs
    rw [h]
    simp [isSimpleProperties, List.all_map, Function.comp_def, (follows_simpleProperty hf).holds]
  | tuple xs => rw [hf.tuple xs]; rfl
  | object m fs => obtain ⟨n, gs, h, _⟩ := hf.object m fs; rw [h]; rfl
  | _ => rw [hf.leaf _ rfl]

theorem follows_flatPattern : flatPattern.Follows f := by
  refine Pattern.follows_node hf (by decide) _ ?_
  simp only [List.forall_mem_cons, List.not_mem_nil, false_imp_iff, implies_true, and_true]
  exact ⟨Pattern.follows_test (isSimpleProperties_faithful hf), by decide⟩

theorem isTextLiteral_faithful (v : Value) : isTextLiteral (f v) = isTextLiteral v := by
  unfold isTextLiteral
  rw [hf.isA]
  by_cases hl : v.isA .literal = true
  · rw [hf.get? (Value.isA_unique hl (by decide)) (by decide)]
    cases v.get? "value" with
    | none => rfl
    | some w =>
      cases w with
      | list m xs => obtain ⟨n, h⟩ := hf.list m xs; rw [Option.map_some, h]
      | tuple xs => rw [Option.map_some, hf.tuple xs]
      | object m fs => obtain ⟨n, gs, h, _⟩ := hf.object m fs; rw [Option.map_some, h]
      | _ => rw [Option.map_some, hf.leaf _ rfl]
  · simp [hl]

theorem isOneSource_faithful (v : Value) : isOneSource (f v) = isOneSource v := by
  cases v with
  | list m xs =>
    obtain ⟨n, h⟩ := hf.list m xs
    rw [h]
    match xs with
    | [] | _ :: _ :: _ => rfl
    | [x] => exact isTextLiteral_faithful hf x
  | tuple xs => rw [hf.tuple xs]; rfl
  | object m fs => obtain ⟨n, gs, h, _⟩ := hf.object m fs; rw [h]; rfl
  | _ => rw [hf.leaf _ rfl]

theorem follows_call : call.Follows f := by
  refine Pattern.follows_node hf (by decide) _ ?_
  simp only [List.forall_mem_cons, List.not_mem_nil, false_imp_iff, implies_true, and_true]
  refine ⟨⟨Pattern.follows_node hf (by decide) _ ?_, by decide⟩,
    Pattern.follows_capture (Pattern.follows_test (isOneSource_faithful hf)) _, by decide⟩
  simp only [List.forall_mem_cons, List.not_mem_nil, false_imp_iff, implies_true, and_true]
  exact ⟨Pattern.follows_leaf hf rfl, by decide⟩

theorem follows_plain : plain.Follows f := by
  refine Pattern.follows_node hf (by decide) _ ?_
  simp only [List.forall_mem_cons, List.not_mem_nil, false_imp_iff, implies_true, and_true]
  refine ⟨⟨Pattern.follows_capture (Pattern.follows_test fun v => ?_) _, by decide⟩, follows_call hf, by decide⟩
  rw [(follows_identifier hf).holds, (follows_flatPattern hf).holds]

theorem follows_member : member.Follows f := by
  refine Pattern.follows_node hf (by decide) _ ?_
  simp only [List.forall_mem_cons, List.not_mem_nil, false_imp_iff, implies_true, and_true]
  refine ⟨⟨Pattern.follows_capture (follows_identifier hf) _, by decide⟩,
    Pattern.follows_node hf (by decide) _ ?_, by decide⟩
  simp only [List.forall_mem_cons, List.not_mem_nil, false_imp_iff, implies_true, and_true]
  exact ⟨⟨Pattern.follows_leaf hf rfl, by decide⟩, ⟨follows_call hf, by decide⟩,
    Pattern.follows_capture (follows_identifier hf) _, by decide⟩

/-- Whether a declarator loads a module is decided by what a faithful function keeps. -/
theorem isDeclarator_faithful (d : Value) : isDeclarator (f d) = isDeclarator d := by
  unfold isDeclarator
  rw [(follows_plain hf).holds, (follows_member hf).holds]

end Require

/-! ## Candidates -/

namespace Statement

/-- Whether one of the items of a value loads a module. -/
def loadsAmong (declarations : Value) : Except Fault Bool :=
  declarations.items.map fun ds => ds.any Require.isDeclarator

/-- Only objects can be asked, and only the declarators of a variable declaration count. -/
theorem isCandidate_object (m : Nat) (fs : Fields) :
    isCandidate (.object m fs) =
      if (Value.object m fs).isA .variableDeclaration then
        loadsAmong ((fs.lookup "declarations").getD (.newList []))
      else .ok false := by
  have htype : ((fs.lookup "type").getD .null).isText NodeType.variableDeclaration.tag
      = (Value.object m fs).isA .variableDeclaration := by
    rw [Value.isA_eq]
    show _ = (fs.lookup "type").any _
    cases fs.lookup "type" <;> rfl
  show (if ((fs.lookup "type").getD .null).isText NodeType.variableDeclaration.tag then _ else _) = _
  rw [htype]
  split
  · unfold loadsAmong
    show (((fs.lookup "declarations").getD (.newList [])).items >>= fun ds =>
      pure (ds.any Require.isDeclarator)) = _
    cases ((fs.lookup "declarations").getD (.newList [])).items <;> rfl
  · rfl

theorem isCandidate_of_not_object {v : Value} (h : v.isObject = false) :
    isCandidate v = .error .notObject := by
  cases v <;> first | rfl | cases h

/-- Texts load no module. -/
theorem any_isDeclarator_texts {α : Type} (g : α → String) (xs : List α) :
    (xs.map fun x => Value.text (g x)).any Require.isDeclarator = false := by
  rw [List.any_map, List.any_eq_false]
  intro x _ h
  exact absurd h (by simp [Require.isDeclarator, Pattern.holds, Require.plain, Require.member, Require.node,
    Pattern.run])

variable {f : Value → Value} (hf : Faithful f)

include hf

theorem loadsAmong_faithful (v : Value) : loadsAmong (f v) = loadsAmong v := by
  have hany (xs : List Value) : (xs.map f).any Require.isDeclarator = xs.any Require.isDeclarator := by
    rw [List.any_map]
    congr 1
    exact funext (Require.isDeclarator_faithful hf)
  cases v with
  | list m xs => obtain ⟨n, h⟩ := hf.list m xs; rw [h]; exact congrArg Except.ok (hany xs)
  | tuple xs => rw [hf.tuple xs]; exact congrArg Except.ok (hany xs)
  | object m fs =>
    obtain ⟨n, gs, h, _⟩ := hf.object m fs
    rw [h]
    exact congrArg Except.ok ((any_isDeclarator_texts _ gs).trans (any_isDeclarator_texts _ fs).symm)
  | _ => rw [hf.leaf _ rfl]

/-- Whether a statement is a candidate is decided by what a faithful function keeps. -/
theorem isCandidate_faithful (v : Value) : isCandidate (f v) = isCandidate v := by
  cases v with
  | list m xs => obtain ⟨n, h⟩ := hf.list m xs; rw [h]; rfl
  | tuple xs => rw [hf.tuple xs]; rfl
  | object m fs =>
    obtain ⟨n, gs, h, _, hother⟩ := hf.object m fs
    have hA : (Value.object n gs).isA .variableDeclaration = (Value.object m fs).isA .variableDeclaration :=
      h ▸ hf.isA (.object m fs) .variableDeclaration
    rw [h, isCandidate_object, isCandidate_object, hA]
    by_cases hv : (Value.object m fs).isA .variableDeclaration = true
    · rw [if_pos hv, if_pos hv, hother (Value.isA_unique hv (by decide)) "declarations" (by decide)]
      cases fs.lookup "declarations" with
      | none => rfl
      | some w => exact loadsAmong_faithful hf w
    · rw [if_neg hv, if_neg hv]
  | _ => rw [hf.leaf _ rfl]

end Statement
end EsmLift
