import EsmLift.Proofs.Loads

/-!
# `Proofs.Erasure` — splitting a statement does not depend on marks

A **regular** function on values is faithful, keeps the fields of every object, and commutes with the constructors
of statements. What a declarator loads, the import it stands for and the statement it becomes all commute with a
regular function. Forgetting the marks is regular, so a statement without marks is split into the same pieces
without marks (`split_erase`).

The skeleton of a value is what is left for recognition to look at.

## Contents

* `load?_faithful`, `Regular`, `Require.statement_regular`;
* `regular_erase`, `Value.compounds_erase`, `Syntax.copyKeys_erase`, `Statement.split_erase`;
* `Value.skeleton`, `faithful_skeleton`, `isCandidate_of_skeleton`.
-/

namespace EsmLift

/-- A load whose parts were changed. -/
def Load.map (f : Value → Value) : Load → Load
  | whole id source => whole (f id) (f source)
  | exports properties source => exports (properties.map f) (f source)
  | one id property source => one (f id) (f property) (f source)

/-! ## Loads -/

namespace Require

variable {f : Value → Value} (hf : Faithful f)

include hf

theorem at_faithful {v : Value} (hv : v.isA .program = false) {key : String}
    (hk : Syntax.metadataKeys.contains key = false) : (f v).at key = f (v.at key) := by
  rw [Value.at, Value.at, hf.get? hv hk]
  cases v.get? key with
  | none => exact (hf.leaf .null rfl).symm
  | some w => rfl

theorem listed_faithful (v : Value) : listed (f v) = (listed v).map f := by
  cases v with
  | list m xs => obtain ⟨n, h⟩ := hf.list m xs; rw [h]; rfl
  | tuple xs => rw [hf.tuple xs]; rfl
  | object m fs => obtain ⟨n, gs, h, _⟩ := hf.object m fs; rw [h]; rfl
  | _ => rw [hf.leaf _ rfl]; rfl

theorem firstOf_faithful (v : Value) : firstOf (f v) = f (firstOf v) := by
  have hnull : f .null = .null := hf.leaf .null rfl
  cases v with
  | list m xs =>
    obtain ⟨n, h⟩ := hf.list m xs
    rw [h]
    cases xs with
    | nil => exact hnull.symm
    | cons x rest => rfl
  | tuple xs => rw [hf.tuple xs]; exact hnull.symm
  | object m fs => obtain ⟨n, gs, h, _⟩ := hf.object m fs; rw [h]; exact hnull.symm
  | _ => rw [hf.leaf _ rfl]; exact hnull.symm

theorem isPlain_faithful (d : Value) : isPlain (f d) = isPlain d := by
  rw [← plain_holds, ← plain_holds, (follows_plain hf).holds]

theorem isMember_faithful (d : Value) : isMember (f d) = isMember d := by
  rw [← member_holds, ← member_holds, (follows_member hf).holds]

theorem moduleOf_faithful {v : Value} (hv : v.isA .callExpression = true) : moduleOf (f v) = f (moduleOf v) := by
  rw [moduleOf, at_faithful hf (Value.isA_unique hv (by decide)) (by decide), firstOf_faithful hf, moduleOf]

/-- What a declarator loads is kept by a faithful function. -/
theorem load?_faithful (d : Value) : load? (f d) = (load? d).map (Load.map f) := by
  unfold load?
  rw [isPlain_faithful hf, isMember_faithful hf]
  by_cases hp : isPlain d = true
  · obtain ⟨hd, ht, hc⟩ : d.isA .variableDeclarator = true ∧ isTarget (d.at "id") = true ∧
        isCall (d.at "init") = true := by simpa [isPlain] using hp
    have hdp := Value.isA_unique hd (t := .program) (by decide)
    have hci : (d.at "init").isA .callExpression = true := by
      simp only [isCall, Bool.and_eq_true] at hc; exact hc.1
    rw [if_pos hp, if_pos hp, at_faithful hf hdp (by decide), at_faithful hf hdp (by decide), hf.isA,
      moduleOf_faithful hf hci]
    by_cases ho : (d.at "id").isA .objectPattern = true
    · rw [if_pos ho, if_pos ho, at_faithful hf (Value.isA_unique ho (by decide)) (by decide), listed_faithful hf]
      rfl
    · rw [if_neg ho, if_neg ho]
      rfl
  · rw [if_neg hp, if_neg hp]
    by_cases hm : isMember d = true
    · obtain ⟨hd, _, ha⟩ : d.isA .variableDeclarator = true ∧ (d.at "id").isA .identifier = true ∧
          isAccess (d.at "init") = true := by simpa [isMember] using hm
      obtain ⟨hi, _, hc, _⟩ : (d.at "init").isA .memberExpression = true ∧
          ((d.at "init").at "computed").equal (.bool false) = true ∧ isCall ((d.at "init").at "object") = true ∧
          ((d.at "init").at "property").isA .identifier = true := by simpa [isAccess] using ha
      have hdp := Value.isA_unique hd (t := .program) (by decide)
      have hip := Value.isA_unique hi (t := .program) (by decide)
      have hci : ((d.at "init").at "object").isA .callExpression = true := by
        simp only [isCall, Bool.and_eq_true] at hc; exact hc.1
      rw [if_pos hm, if_pos hm, at_faithful hf hdp (by decide), at_faithful hf hdp (by decide),
        at_faithful hf hip (by decide), at_faithful hf hip (by decide), moduleOf_faithful hf hci]
      rfl
    · rw [if_neg hm, if_neg hm]
      rfl

end Require

/-! ## Regular functions -/

/-- A faithful function that keeps the fields of every object and commutes with building statements. -/
structure Regular (f : Value → Value) : Prop extends Faithful f where
  field : ∀ m fs, ∃ n gs, f (.object m fs) = .object n gs ∧
    ∀ key, Syntax.metadataKeys.contains key = false → gs.lookup key = (fs.lookup key).map f
  defaultSpecifier : ∀ localName,
    f (Syntax.importDefaultSpecifier localName) = Syntax.importDefaultSpecifier (f localName)
  specifier : ∀ localName imported,
    f (Syntax.importSpecifier localName imported) = Syntax.importSpecifier (f localName) (f imported)
  declaration : ∀ specifiers source,
    f (Syntax.importDeclaration specifiers source) = Syntax.importDeclaration (specifiers.map f) (f source)
  ofVariables : ∀ kind declarations,
    f (Syntax.variableDeclaration kind declarations)
      = Syntax.variableDeclaration (f kind) (declarations.map f)

namespace Require

variable {f : Value → Value} (hf : Regular f)

include hf

theorem require_regular (v : Value) {key : String} (hk : Syntax.metadataKeys.contains key = false) :
    (f v).require key = (v.require key).map f := by
  cases v with
  | list m xs => obtain ⟨n, h⟩ := hf.list m xs; rw [h]; rfl
  | tuple xs => rw [hf.tuple xs]; rfl
  | object m fs =>
    obtain ⟨n, gs, h, hg⟩ := hf.field m fs
    rw [h]
    simp only [Value.require, hg key hk]
    cases fs.lookup key <;> rfl
  | _ => rw [hf.leaf _ rfl]; rfl

theorem specifier_regular (localName imported : Value) :
    specifier (f localName) (f imported) = (specifier localName imported).map f := by
  unfold specifier
  rw [require_regular hf imported (by decide)]
  cases imported.require "name" with
  | error fault => rfl
  | ok name =>
    show (if isDefault (f name) then _ else _) = Except.map f (if isDefault name then _ else _)
    have hd : isDefault (f name) = isDefault name := hf.isText name "default"
    rw [hd]
    by_cases h : isDefault name = true
    · rw [if_pos h, if_pos h, ← hf.defaultSpecifier]; rfl
    · rw [if_neg h, if_neg h, ← hf.specifier]; rfl

theorem propertySpecifiers_regular (ps : List Value) :
    propertySpecifiers (ps.map f) = (propertySpecifiers ps).map (List.map f) := by
  have hone (p : Value) : propertySpecifier (f p) = (propertySpecifier p).map f := by
    unfold propertySpecifier
    rw [require_regular hf p (by decide), require_regular hf p (by decide)]
    cases p.require "value" with
    | error fault => rfl
    | ok localName =>
      cases p.require "key" with
      | error fault => rfl
      | ok imported => exact specifier_regular hf localName imported
  induction ps with
  | nil => rfl
  | cons p rest ih =>
    show (propertySpecifier (f p) >>= fun s => propertySpecifiers (rest.map f) >>= fun rest => pure (s :: rest)) = _
    rw [hone p, ih, propertySpecifiers]
    cases propertySpecifier p with
    | error fault => rfl
    | ok s => cases propertySpecifiers rest <;> rfl

theorem defaultsFirst_regular (ss : List Value) : defaultsFirst (ss.map f) = (defaultsFirst ss).map f := by
  simp only [defaultsFirst, List.filter_map, List.map_append, Function.comp_def, hf.isA]

/-- The import of a load commutes with a regular function. -/
theorem toImport_regular (l : Load) : (l.map f).toImport = l.toImport.map f := by
  cases l with
  | whole id source =>
    simp only [Load.map, Load.toImport, Except.map, hf.declaration, List.map_cons, List.map_nil, hf.defaultSpecifier]
  | exports ps source =>
    simp only [Load.map, Load.toImport, propertySpecifiers_regular hf]
    cases propertySpecifiers ps with
    | error fault => rfl
    | ok ss => simp only [Except.map, hf.declaration, defaultsFirst_regular hf]
  | one id property source =>
    simp only [Load.map, Load.toImport, specifier_regular hf]
    cases specifier id property with
    | error fault => rfl
    | ok s => simp only [Except.map, hf.declaration, List.map_cons, List.map_nil]

/-- The statement of a declarator commutes with a regular function. -/
theorem statement_regular (kind d : Value) : statement (f kind) (f d) = (statement kind d).map f := by
  rw [statement_eq, statement_eq, load?_faithful hf.toFaithful]
  cases load? d with
  | none => simp only [Option.map_none, Except.map, hf.ofVariables, List.map_cons, List.map_nil]
  | some l => exact toImport_regular hf l

end Require

theorem Statement.pieces_regular {f : Value → Value} (hf : Regular f) (kind : Value) (ds : List Value) :
    Statement.pieces (f kind) (ds.map f) = (Statement.pieces kind ds).map (List.map f) := by
  induction ds with
  | nil => rfl
  | cons d rest ih =>
    show (Require.statement (f kind) (f d) >>= fun s => pieces (f kind) (rest.map f) >>= fun rest =>
      pure (s :: rest)) = _
    rw [Require.statement_regular hf, ih, pieces]
    cases Require.statement kind d with
    | error fault => rfl
    | ok s => cases pieces kind rest <;> rfl

/-! ## Forgetting the marks -/

namespace Value

theorem erase_leaf {v : Value} (h : v.isCompound = false) : v.erase = v := by
  cases v <;> first | rfl | cases h

theorem erase_list (m : Nat) (xs : List Value) : (list m xs).erase = list 0 (xs.map erase) := by
  rw [erase, eraseItems_eq_map]

theorem erase_tuple (xs : List Value) : (tuple xs).erase = tuple (xs.map erase) := by
  rw [erase, eraseItems_eq_map]

theorem erase_object (m : Nat) (fs : Fields) :
    (object m fs).erase = object 0 (fs.map fun f => (f.1, f.2.erase)) := by
  rw [erase, eraseFields_eq_map]

theorem compounds_erase (v : Value) : v.erase.compounds = v.compounds.map erase := by
  induction v using Value.induction with
  | leaf v h => rw [erase_leaf h, compounds_leaf h]; rfl
  | list m xs ih =>
    rw [erase_list, compounds, compounds, compoundsItems_eq, compoundsItems_eq, List.map_cons, erase_list,
      List.flatMap_map, List.map_flatMap]
    exact congrArg _ (by rw [List.flatMap_def, List.flatMap_def, List.map_congr_left ih])
  | tuple xs ih =>
    rw [erase_tuple, compounds, compounds, compoundsItems_eq, compoundsItems_eq, List.map_cons, erase_tuple,
      List.flatMap_map, List.map_flatMap]
    exact congrArg _ (by rw [List.flatMap_def, List.flatMap_def, List.map_congr_left ih])
  | object m fs ih =>
    rw [erase_object, compounds, compounds, compoundsFields_eq, compoundsFields_eq, List.map_cons, erase_object,
      List.flatMap_map, List.map_flatMap]
    exact congrArg _ (by rw [List.flatMap_def, List.flatMap_def, List.map_congr_left ih])

theorem lookup_erase (fs : Fields) (key : String) :
    (fs.map fun f => (f.1, f.2.erase)).lookup key = (fs.lookup key).map erase :=
  Fields.lookup_map (fun _ v => v.erase) fs key

end Value

theorem regular_erase : Regular Value.erase where
  leaf _ h := Value.erase_leaf h
  list m xs := ⟨0, Value.erase_list m xs⟩
  tuple xs := Value.erase_tuple xs
  object m fs := ⟨0, _, Value.erase_object m fs, Value.lookup_erase fs "type",
    fun _ key _ => Value.lookup_erase fs key⟩
  field m fs := ⟨0, _, Value.erase_object m fs, fun key _ => Value.lookup_erase fs key⟩
  defaultSpecifier _ := rfl
  specifier _ _ := rfl
  declaration specifiers _ := by
    simp only [Syntax.importDeclaration, Value.new, Value.newList, Value.erase_object, List.map_cons, List.map_nil,
      Value.erase_list, NodeType.value, Value.erase_leaf (show (Value.text _).isCompound = false from rfl)]
  ofVariables _ declarations := by
    simp only [Syntax.variableDeclaration, Value.new, Value.newList, Value.erase_object, List.map_cons, List.map_nil,
      Value.erase_list, NodeType.value, Value.erase_leaf (show (Value.text _).isCompound = false from rfl)]

namespace Value

theorem isNode_erase (v : Value) : v.erase.isNode = v.isNode := by
  rw [isNode, isNode, regular_erase.get?_type, Option.isSome_map]

theorem items_erase (v : Value) : v.erase.items = v.items.map (List.map erase) := by
  cases v with
  | list m xs => rw [erase_list]; rfl
  | tuple xs => rw [erase_tuple]; rfl
  | object m fs =>
    rw [erase_object]
    simp [items, Except.map, Function.comp_def, erase_leaf (show (text _).isCompound = false from rfl)]
  | text s =>
    simp [erase, items, Except.map, Function.comp_def]
  | _ => rfl

theorem get?_erase (v : Value) (key : String) : v.erase.get? key = (v.get? key).map erase := by
  cases v with
  | object m fs => rw [erase_object]; exact lookup_erase fs key
  | list m xs => rw [erase_list]; rfl
  | tuple xs => rw [erase_tuple]; rfl
  | _ => rfl

theorem field_erase (v : Value) (key : String) : v.erase.field key = (v.field key).map erase := by
  cases v with
  | object m fs =>
    rw [erase_object]
    simp only [field, lookup_erase, Except.map]
    cases fs.lookup key <;> rfl
  | list m xs => rw [erase_list]; rfl
  | tuple xs => rw [erase_tuple]; rfl
  | _ => rfl

theorem truthy_erase (v : Value) : v.erase.truthy = v.truthy := by
  cases v with
  | list m xs => rw [erase_list]; simp [truthy]
  | tuple xs => rw [erase_tuple]; simp [truthy]
  | object m fs => rw [erase_object]; simp [truthy]
  | _ => rfl

end Value

theorem Fields.erase_put (fs : Fields) (key : String) (v : Value) :
    ((Fields.put fs key v).map fun f => (f.1, f.2.erase))
      = Fields.put (fs.map fun f => (f.1, f.2.erase)) key v.erase := by
  induction fs with
  | nil => rfl
  | cons f rest ih =>
    obtain ⟨k, w⟩ := f
    by_cases h : k = key
    · simp [Fields.put, h]
    · simpa [Fields.put, h] using ih

/-! ## Splitting a statement without marks -/

namespace Syntax

theorem copyKey_erase (source target : Value) (key : String) :
    copyKey source.erase target.erase key = (copyKey source target key).map Value.erase := by
  unfold copyKey
  rw [Value.field_erase]
  cases source.field key with
  | error fault => rfl
  | ok comments =>
    show (if comments.erase.truthy then _ else _) = Except.map _ (if comments.truthy then _ else _)
    rw [Value.truthy_erase]
    by_cases ht : comments.truthy = true
    · rw [if_pos ht, if_pos ht, Value.items_erase]
      cases comments.items with
      | error fault => rfl
      | ok copied =>
        cases target with
        | object m fs =>
          have hown : (((fs.map fun (f : String × Value) => (f.1, f.2.erase)).lookup key).getD
                (Value.newList [])).items
              = (((fs.lookup key).getD (Value.newList [])).items).map (List.map Value.erase) := by
            rw [Value.lookup_erase]
            cases fs.lookup key with
            | none => rfl
            | some w => exact Value.items_erase w
          rw [Value.erase_object]
          show ((((fs.map fun (f : String × Value) => (f.1, f.2.erase)).lookup key).getD
              (Value.newList [])).items >>= fun own => _)
            = Except.map _ (((fs.lookup key).getD (Value.newList [])).items >>= fun own => _)
          rw [hown]
          cases ((fs.lookup key).getD (Value.newList [])).items with
          | error fault => rfl
          | ok own =>
            show Except.ok _ = Except.ok _
            rw [Value.erase_object, Fields.erase_put, Value.newList, Value.newList, Value.erase_list,
              List.map_append]
        | list m xs => rw [Value.erase_list]; rfl
        | tuple xs => rw [Value.erase_tuple]; rfl
        | _ => rfl
    · rw [if_neg ht, if_neg ht]
      rfl

theorem copyKeys_erase (source target : Value) (keys : List String) :
    copyKeys source.erase target.erase keys
      = ((copyKeys source target keys).1.erase, (copyKeys source target keys).2) := by
  induction keys generalizing target with
  | nil => rfl
  | cons key rest ih =>
    simp only [copyKeys, copyKey_erase]
    cases copyKey source target key with
    | error fault => rfl
    | ok target' => exact ih target'

end Syntax

/-- A replacement without marks. -/
def Replacement.erase (r : Replacement) : Replacement := { target := r.target.erase, nodes := r.nodes.map Value.erase }

namespace Statement

theorem commented_erase (statement : Value) (nodes : List Value) :
    commented statement.erase (nodes.map Value.erase) = (commented statement nodes).map (List.map Value.erase) := by
  cases nodes with
  | nil => rfl
  | cons first rest =>
    simp only [commented, List.map_cons, Syntax.copyComments, Syntax.copyKeys_erase]
    rcases Syntax.copyKeys statement first Syntax.commentKeys with ⟨target, _ | fault⟩ <;> rfl

/-- **Splitting does not depend on marks.** A statement without marks is split into the same pieces, without
marks. -/
theorem split_erase (keepComments : Bool) (statement : Value) :
    split keepComments statement.erase = (split keepComments statement).map Replacement.erase := by
  unfold split
  rw [Require.require_regular regular_erase statement (by decide),
    Require.require_regular regular_erase statement (by decide)]
  cases statement.require "kind" with
  | error fault => rfl
  | ok kind =>
    cases statement.require "declarations" with
    | error fault => rfl
    | ok declarations =>
      show (declarations.erase.items >>= fun ds => _) = Except.map _ (declarations.items >>= fun ds => _)
      rw [Value.items_erase]
      cases declarations.items with
      | error fault => rfl
      | ok ds =>
        show (pieces kind.erase (ds.map Value.erase) >>= fun nodes => _)
          = Except.map _ (pieces kind ds >>= fun nodes => _)
        rw [pieces_regular regular_erase]
        cases pieces kind ds with
        | error fault => rfl
        | ok nodes =>
          cases keepComments with
          | false => rfl
          | true =>
            show (commented statement.erase (nodes.map Value.erase) >>= fun nodes => _)
              = Except.map _ (commented statement nodes >>= fun nodes => _)
            rw [commented_erase]
            cases commented statement nodes <;> rfl

end Statement

/-! ## What recognition looks at -/

namespace Value

mutual
/-- A value without marks, metadata and the contents of programs. -/
def skeleton : Value → Value
  | list _ xs => list 0 (skeletonItems xs)
  | tuple xs => tuple (skeletonItems xs)
  | object m fs =>
    if (object m fs).isA .program then object 0 [("type", NodeType.program.value)]
    else object 0 (skeletonFields fs)
  | v => v

/-- The skeletons of the items of a list. -/
def skeletonItems : List Value → List Value
  | [] => []
  | v :: rest => skeleton v :: skeletonItems rest

/-- The skeletons of the fields that are no metadata. -/
def skeletonFields : List (String × Value) → List (String × Value)
  | [] => []
  | (k, v) :: rest =>
    if Syntax.metadataKeys.contains k then skeletonFields rest else (k, skeleton v) :: skeletonFields rest
end

theorem skeletonItems_eq_map (xs : List Value) : skeletonItems xs = xs.map skeleton := by
  induction xs with
  | nil => rfl
  | cons x rest ih => simp [skeletonItems, ih]

theorem lookup_skeletonFields (fs : Fields) {key : String} (hk : Syntax.metadataKeys.contains key = false) :
    (skeletonFields fs).lookup key = (fs.lookup key).map skeleton := by
  induction fs with
  | nil => rfl
  | cons f rest ih =>
    obtain ⟨k, v⟩ := f
    rw [skeletonFields]
    by_cases hkk : key = k
    · subst hkk
      rw [if_neg (by rw [hk]; exact Bool.false_ne_true)]
      simp
    · have hne : (key == k) = false := by simpa using hkk
      rw [List.lookup_cons, hne]
      split
      · exact ih
      · rw [List.lookup_cons, hne]; exact ih

theorem faithful_skeleton : Faithful skeleton where
  leaf v h := by cases v <;> first | rfl | cases h
  list m xs := ⟨0, by rw [skeleton, skeletonItems_eq_map]⟩
  tuple xs := by rw [skeleton, skeletonItems_eq_map]
  object m fs := by
    rw [skeleton]
    by_cases hp : (object m fs).isA .program = true
    · have ht : fs.lookup "type" = some (text "Program") := isA_iff.mp hp
      rw [if_pos hp]
      exact ⟨0, _, rfl, by rw [ht]; rfl, fun h => absurd hp (by rw [h]; exact Bool.false_ne_true)⟩
    · rw [if_neg hp]
      exact ⟨0, _, rfl, lookup_skeletonFields fs (by decide), fun _ key hk => lookup_skeletonFields fs hk⟩

end Value

/-- Values with one skeleton are candidates alike. -/
theorem Statement.isCandidate_of_skeleton {v w : Value} (h : v.skeleton = w.skeleton) :
    Statement.isCandidate v = Statement.isCandidate w := by
  rw [← isCandidate_faithful Value.faithful_skeleton v, h, isCandidate_faithful Value.faithful_skeleton w]

/-- Forgetting the marks does not make or unmake a candidate. -/
theorem Statement.isCandidate_erase (v : Value) : Statement.isCandidate v.erase = Statement.isCandidate v :=
  isCandidate_faithful regular_erase.toFaithful v

end EsmLift
