import EsmLift.Proofs.Refinement
import EsmLift.Proofs.Reserve
import Mathlib.Data.List.Nodup

/-!
# `Proofs.WellFormed` — trees that a parser could have written

A tree is well-formed if each of its objects is **proper**: a declaration has a kind and a list of declarators, a
name has its text, and locations and comments have their shapes. The pass edits a tree in place, so this has to
survive every edit. For that each mark is typed once and for all, as the locations of a store are: it is known
beforehand which marks may ever be edited, and these are the marks of the lists in the fields of programs.

## Contents

* `Value.wellFormed`, `Value.Proper`: the property of a tree, and of one object;
* `Value.Resembles`: values that look the same from outside;
* `Value.Sane`, `Value.Fit`: proper objects in marked trees, with marks of the right type;
* `Revisions.Fit`, `Fit.refresh`, `Revisions.Fit.record`: an edit keeps values fit;
* `fit_stamp`, `exists_fit_stamp`: marks for new objects, and for a tree that has none.
-/

namespace EsmLift

open Value Require

/-! ## Proper objects -/

namespace Value

/-- Whether a value is a list. -/
def isList : Value → Bool
  | list .. => true
  | _ => false

/-- The fields of an object. -/
def fieldsOf : Value → Fields
  | object _ fs => fs
  | _ => []

/-- Whether a field is absent or null, or its value passes a test. -/
def optional (test : Value → Bool) : Option Value → Bool
  | none | some null => true
  | some v => test v

/-- Whether one object has the fields that its type promises, a location and comments of the right shape, and, if it
is a program, no declaration as the value of a field. -/
def isProper (v : Value) : Bool :=
  (!v.isA .variableDeclaration ||
    (v.get? "kind").isSome && (v.at "declarations").isList && (listed (v.at "declarations")).all isObject) &&
  (!v.isA .identifier || (v.get? "name").isSome) &&
  (!(v.at "loc").isObject || optional isObject ((v.at "loc").get? "start")) &&
  Syntax.commentKeys.all (fun key => optional isList (v.get? key)) &&
  (!v.isA .program || v.fieldsOf.all fun f => !f.2.isA .variableDeclaration)

/-- An object as its type promises. -/
structure Proper (v : Value) : Prop where
  kind : v.isA .variableDeclaration = true → (v.get? "kind").isSome = true
  declarations : v.isA .variableDeclaration = true → (v.at "declarations").isList = true
  declarators : v.isA .variableDeclaration = true → ∀ d ∈ listed (v.at "declarations"), d.isObject = true
  name : v.isA .identifier = true → (v.get? "name").isSome = true
  start : (v.at "loc").isObject = true → optional isObject ((v.at "loc").get? "start") = true
  comments : ∀ key ∈ Syntax.commentKeys, optional isList (v.get? key) = true
  direct : v.isA .program = true → ∀ f ∈ v.fieldsOf, f.2.isA .variableDeclaration = false

theorem isProper_iff {v : Value} : v.isProper = true ↔ v.Proper := by
  have himp (a b : Bool) : (!a || b) = true ↔ (a = true → b = true) := by cases a <;> simp
  simp only [isProper, Bool.and_eq_true, himp, List.all_eq_true, Bool.not_eq_true']
  constructor
  · rintro ⟨⟨⟨⟨hdecl, hname⟩, hstart⟩, hcomments⟩, hdirect⟩
    exact ⟨fun h => (hdecl h).1.1, fun h => (hdecl h).1.2, fun h => (hdecl h).2, hname, hstart, hcomments, hdirect⟩
  · intro h
    exact ⟨⟨⟨⟨fun hA => ⟨⟨h.kind hA, h.declarations hA⟩, h.declarators hA⟩, h.name⟩, h.start⟩, h.comments⟩, h.direct⟩

/-- Only objects can be improper. -/
theorem proper_of_not_object {v : Value} (h : v.isObject = false) : v.Proper := by
  have hget (key : String) : v.get? key = none := by
    cases v with
    | object m fs => cases h
    | _ => rfl
  have hA (t : NodeType) : v.isA t = false := by rw [isA_eq, hget]; rfl
  have hat (key : String) : v.at key = null := by rw [Value.at, hget]; rfl
  refine ⟨fun h => ?_, fun h => ?_, fun h => ?_, fun h => ?_, fun h => ?_, fun key _ => by rw [hget]; rfl, fun h => ?_⟩
  · rw [hA] at h; cases h
  · rw [hA] at h; cases h
  · rw [hA] at h; cases h
  · rw [hA] at h; cases h
  · rw [hat] at h; cases h
  · rw [hA] at h; cases h

/-- A declaration has a list of objects. -/
theorem Proper.exists_list {v : Value} (h : v.Proper) (hA : v.isA .variableDeclaration = true) :
    ∃ m ds, v.get? "declarations" = some (list m ds) ∧ ∀ d ∈ ds, d.isObject = true := by
  have hlist := h.declarations hA
  have hobj := h.declarators hA
  unfold Value.at at hlist hobj
  cases hg : v.get? "declarations" with
  | none => rw [hg] at hlist; cases hlist
  | some w =>
    rw [hg] at hlist hobj
    cases w with
    | list m ds => exact ⟨m, ds, rfl, hobj⟩
    | _ => cases hlist

end Value

/-! ## Values that look the same from outside -/

namespace Value

variable {editable : Nat → Bool}

/-- `w` looks as `v` does to the object around it: of the same kind and type, with a mark of the same type. Objects
in a list that is not editable stay objects. -/
structure Resembles (editable : Nat → Bool) (v w : Value) : Prop where
  isText : ∀ s, w.isText s = v.isText s
  isInt : ∀ i, w = int i → v = int i
  isNull : v = null → w = null
  isList : w.isList = v.isList
  isObject : w.isObject = v.isObject
  isA : ∀ t, w.isA t = v.isA t
  typed : v.isList = true → editable w.mark = editable v.mark
  objects : v.isList = true → editable v.mark = false → (∀ x ∈ listed v, x.isObject = true) →
    ∀ x ∈ listed w, x.isObject = true
  start : optional Value.isObject (v.get? "start") = true → optional Value.isObject (w.get? "start") = true

theorem Resembles.refl (v : Value) : v.Resembles editable v :=
  ⟨fun _ => rfl, fun _ => id, id, rfl, rfl, fun _ => rfl, fun _ => rfl, fun _ _ h => h, id⟩

theorem Resembles.optional {test : Value → Bool} {v w : Value} (h : v.Resembles editable w) (htest : test w = test v)
    (hv : Value.optional test (some v) = true) : Value.optional test (some w) = true := by
  by_cases hn : v = null
  · rw [h.isNull hn]
    rfl
  · have hv' : test v = true := by
      unfold Value.optional at hv
      split at hv
      · rename_i heq; cases heq
      · rename_i heq; exact absurd (Option.some.inj heq) hn
      · rename_i heq; cases heq; exact hv
    unfold Value.optional
    split
    · rfl
    · rfl
    · rename_i heq
      cases heq
      rw [htest, hv']

/-- Lists whose marks are of one type look the same, if objects stay objects. -/
theorem resembles_list {m n : Nat} {xs ys : List Value} (ht : editable n = editable m)
    (hobj : editable m = false → (∀ x ∈ xs, x.isObject = true) → ∀ y ∈ ys, y.isObject = true) :
    (list m xs).Resembles editable (list n ys) :=
  ⟨fun _ => rfl, nofun, (nomatch ·), rfl, rfl, fun _ => rfl, fun _ => ht, fun _ => hobj, fun h => h⟩

/-- Fields that look the same, under the same keys. -/
abbrev ResemblesFields (editable : Nat → Bool) (fs gs : Fields) : Prop :=
  List.Forall₂ (fun f g => g.1 = f.1 ∧ f.2.Resembles editable g.2) fs gs

theorem ResemblesFields.lookup {fs gs : Fields} (h : ResemblesFields editable fs gs) (key : String) :
    Option.Rel (Resembles editable) (fs.lookup key) (gs.lookup key) := by
  induction h with
  | nil => exact .none
  | @cons f g fs gs hfg _ ih =>
    obtain ⟨k, v⟩ := f
    obtain ⟨j, w⟩ := g
    obtain ⟨hkey, hvw⟩ := hfg
    cases hkey
    rw [List.lookup_cons, List.lookup_cons]
    cases key == k with
    | true => exact .some hvw
    | false => exact ih

/-- The field of an object that looks the same. -/
theorem ResemblesFields.at {fs gs : Fields} (h : ResemblesFields editable fs gs) (m n : Nat) (key : String) :
    ((object m fs).at key).Resembles editable ((object n gs).at key) := by
  have hrel := h.lookup key
  rw [at_object, at_object]
  generalize fs.lookup key = a at hrel ⊢
  generalize gs.lookup key = b at hrel ⊢
  cases hrel with
  | none => exact .refl _
  | some hvw => exact hvw

theorem ResemblesFields.isSome {fs gs : Fields} (h : ResemblesFields editable fs gs) (key : String) :
    (gs.lookup key).isSome = (fs.lookup key).isSome := by
  have hrel := h.lookup key
  generalize fs.lookup key = a at hrel ⊢
  generalize gs.lookup key = b at hrel ⊢
  cases hrel <;> rfl

theorem ResemblesFields.isA {fs gs : Fields} (h : ResemblesFields editable fs gs) (m n : Nat) (t : NodeType) :
    (object n gs).isA t = (object m fs).isA t := by
  have hrel := h.lookup "type"
  rw [isA_eq, isA_eq]
  show (gs.lookup "type").any _ = (fs.lookup "type").any _
  generalize fs.lookup "type" = a at hrel ⊢
  generalize gs.lookup "type" = b at hrel ⊢
  cases hrel with
  | none => rfl
  | some hvw => exact hvw.isText _

/-- A field that passes a test of kind still passes it. -/
theorem ResemblesFields.optional {fs gs : Fields} (h : ResemblesFields editable fs gs) {test : Value → Bool}
    (htest : ∀ v w : Value, v.Resembles editable w → test w = test v) (key : String)
    (hfs : Value.optional test (fs.lookup key) = true) : Value.optional test (gs.lookup key) = true := by
  have hrel := h.lookup key
  generalize fs.lookup key = a at hrel hfs
  generalize gs.lookup key = b at hrel ⊢
  cases hrel with
  | none => rfl
  | some hvw => exact hvw.optional (htest _ _ hvw) hfs

/-- Objects look the same if their fields do. -/
theorem ResemblesFields.object {fs gs : Fields} (h : ResemblesFields editable fs gs) (m n : Nat) :
    (object m fs).Resembles editable (object n gs) where
  isText _ := rfl
  isInt _ hv := by cases hv
  isNull hv := by cases hv
  isList := rfl
  isObject := rfl
  isA := h.isA m n
  typed hv := by cases hv
  objects hv := by cases hv
  start := h.optional (fun _ _ hvw => hvw.isObject) "start"

end Value

/-! ## Fit values -/

/-- What is known of a tree: which of its marks are those of editable lists, and which whole numbers it has. -/
structure Terms where
  editable : Nat → Bool
  allowed : Int → Bool

namespace Value

variable {terms : Terms} {placed : Bool}

/-- A value keeps to the terms of its place: a list has a mark of the right type, and a number is allowed. -/
structure Suits (terms : Terms) (own : Bool) (v : Value) : Prop where
  typed : v.isList = true → terms.editable v.mark = own
  number : ∀ i, v = int i → terms.allowed i = true

/-- An object or list of a marked tree is proper, and its parts suit their places: editable are the lists in the fields
of programs. Once it is placed in a tree it has a mark. -/
structure Sane (terms : Terms) (placed : Bool) (c : Value) : Prop where
  proper : c.Proper
  not_tuple : c.isTuple = false
  marked : placed = true → 0 < c.mark
  uneditable : c.isObject = true → terms.editable c.mark = false
  fields : ∀ f ∈ c.fieldsOf, f.2.Suits terms (c.isA .program && !Syntax.metadataKeys.contains f.1)
  items : ∀ x ∈ listed c, x.Suits terms false

/-- What looks like a suitable value is suitable. -/
theorem Suits.of_resembles {own : Bool} {v w : Value} (h : v.Suits terms own) (hres : v.Resembles terms.editable w) :
    w.Suits terms own where
  typed hl := (hres.typed (hres.isList.symm.trans hl)).trans (h.typed (hres.isList.symm.trans hl))
  number i hw := h.number i (hres.isInt i hw)

/-- All objects and lists in a value are sane. -/
def Fit (terms : Terms) (placed : Bool) (v : Value) : Prop := ∀ c ∈ v.compounds, c.Sane terms placed

theorem fit_leaf {v : Value} (h : v.isCompound = false) : v.Fit terms placed := by
  intro c hc
  rw [compounds_leaf h] at hc
  exact absurd hc List.not_mem_nil

theorem fit_list {m : Nat} {xs : List Value} : (list m xs).Fit terms placed ↔
    (list m xs).Sane terms placed ∧ ∀ x ∈ xs, x.Fit terms placed := by
  simp only [Fit, mem_compounds_list]
  constructor
  · intro h
    exact ⟨h _ (.inl rfl), fun x hx c hc => h c (.inr ⟨x, hx, hc⟩)⟩
  · rintro ⟨h, hxs⟩ c (rfl | ⟨x, hx, hc⟩)
    · exact h
    · exact hxs x hx c hc

theorem fit_object {m : Nat} {fs : Fields} : (object m fs).Fit terms placed ↔
    (object m fs).Sane terms placed ∧ ∀ f ∈ fs, f.2.Fit terms placed := by
  simp only [Fit, mem_compounds_object]
  constructor
  · intro h
    exact ⟨h _ (.inl rfl), fun f hf c hc => h c (.inr ⟨f, hf, hc⟩)⟩
  · rintro ⟨h, hfs⟩ c (rfl | ⟨f, hf, hc⟩)
    · exact h
    · exact hfs f hf c hc

theorem Fit.not_tuple {xs : List Value} (h : (tuple xs).Fit terms placed) : False :=
  absurd (h _ (mem_compounds_tuple.mpr (.inl rfl))).not_tuple Bool.noConfusion

/-- What is fit to stand in a tree is fit anywhere. -/
theorem Fit.weaken {v : Value} (h : v.Fit terms true) : v.Fit terms placed := fun c hc =>
  { h c hc with marked := fun _ => (h c hc).marked rfl }

theorem sane_list {m : Nat} {xs : List Value} (hm : placed = true → 0 < m) (hxs : ∀ x ∈ xs, x.Suits terms false) :
    (list m xs).Sane terms placed :=
  ⟨proper_of_not_object rfl, rfl, hm, (nomatch ·), fun _ hf => absurd hf List.not_mem_nil, hxs⟩

/-- What looks like a proper object from inside is proper. -/
theorem Proper.of_resembles {editable : Nat → Bool} {m n : Nat} {fs gs : Fields} (h : (object m fs).Proper)
    (hfs : ∀ f ∈ fs, f.2.isList = true → (object m fs).isA .program = false → editable f.2.mark = false)
    (hres : ResemblesFields editable fs gs) : (object n gs).Proper := by
  have hA (t : NodeType) := hres.isA m n t
  have hdecl := hres.at m n "declarations"
  refine ⟨fun h' => ?_, fun h' => ?_, fun h' => ?_, fun h' => ?_, fun h' => ?_, fun key hkey => ?_, fun h' f hf => ?_⟩
  · rw [hA] at h'
    exact (hres.isSome "kind").trans (h.kind h')
  · rw [hA] at h'
    exact hdecl.isList.trans (h.declarations h')
  · rw [hA] at h'
    -- the declarators stand in a list that no one edits
    refine hdecl.objects (h.declarations h') ?_ (h.declarators h')
    obtain ⟨k, ds, hget, _⟩ := h.exists_list h'
    rw [at_eq hget]
    exact hfs _ (Fields.mem_of_lookup hget) rfl (isA_unique (t := .program) h' (by decide))
  · rw [hA] at h'
    exact (hres.isSome "name").trans (h.name h')
  · have hloc := hres.at m n "loc"
    exact hloc.start (h.start (hloc.isObject.symm.trans h'))
  · exact hres.optional (fun _ _ hvw => hvw.isList) key (h.comments key hkey)
  · rw [hA] at h'
    obtain ⟨e, he, _, hres⟩ := exists_left_of_forall₂ hres hf
    rw [hres.isA]
    exact h.direct h' e he

theorem Sane.of_resembles {m n : Nat} {fs gs : Fields} {placed' : Bool} (h : (object m fs).Sane terms placed)
    (hres : ResemblesFields terms.editable fs gs) (hn : placed' = true → 0 < n) (ht : terms.editable n = false) :
    (object n gs).Sane terms placed' := by
  refine ⟨h.proper.of_resembles (fun f hf hl hp => ?_) hres, rfl, hn, fun _ => ht, fun g hg => ?_,
    fun x hx => absurd hx List.not_mem_nil⟩
  · rw [(h.fields f hf).typed hl, hp]
    rfl
  · obtain ⟨f, hf, hkey, hfg⟩ := exists_left_of_forall₂ hres hg
    rw [hkey, hres.isA m n]
    exact (h.fields f hf).of_resembles hfg

end Value

/-! ## Edits -/

/-- Revisions are fit if they are new states of terms.editable lists, and fit to stand in a tree. -/
structure Revisions.Fit (terms : Terms) (R : Revisions) : Prop where
  typed : ∀ m c, R.lookup m = some c → terms.editable m = true
  list : ∀ m c, R.lookup m = some c → ∃ xs, c = .list m xs
  fit : ∀ m c, R.lookup m = some c → c.Fit terms true

namespace Value

variable {terms : Terms} {placed : Bool} {R : Revisions}

theorem lookup_none {m : Nat} (hR : R.Fit terms) (h : terms.editable m = false) : R.lookup m = none := by
  cases hl : R.lookup m with
  | none => rfl
  | some c =>
    have ht := hR.typed m c hl
    rw [h] at ht
    cases ht

/-- Bringing a value up to date does not change what it looks like. -/
theorem Fit.resembles_refresh {v : Value} (hv : v.Fit terms placed) (hR : R.Fit terms) :
    v.Resembles terms.editable (v.refresh R) := by
  induction v using Value.induction with
  | leaf v h => rw [refresh_leaf h]; exact .refl v
  | tuple xs _ => exact hv.not_tuple.elim
  | list m xs ih =>
    obtain ⟨hself, hxs⟩ := fit_list.mp hv
    cases hl : R.lookup m with
    | some c =>
      obtain ⟨ys, rfl⟩ := hR.list m c hl
      simp only [Value.refresh, hl, Option.getD_some]
      -- an edited list is terms.editable, so nothing is said about its items
      refine resembles_list rfl fun hm => ?_
      rw [hR.typed m _ hl] at hm
      cases hm
    | none =>
      simp only [Value.refresh, hl, Option.getD_none, refreshItems_eq_map]
      refine resembles_list rfl fun _ hobj y hy => ?_
      obtain ⟨x, hx, rfl⟩ := List.mem_map.mp hy
      exact (ih x hx (hxs x hx)).isObject.trans (hobj x hx)
  | object m fs ih =>
    obtain ⟨hself, hfs⟩ := fit_object.mp hv
    have hnone : R.lookup m = none := lookup_none hR (hself.uneditable rfl)
    simp only [Value.refresh, hnone, Option.getD_none, refreshFields_eq_map]
    refine ResemblesFields.object ?_ m m
    exact List.forall₂_map_right_iff.mpr (List.forall₂_same.mpr fun f hf => ⟨rfl, ih f hf (hfs f hf)⟩)

/-- **Bringing a value up to date keeps it fit.** -/
theorem Fit.refresh {v : Value} (hv : v.Fit terms placed) (hR : R.Fit terms) :
    (v.refresh R).Fit terms placed := by
  induction v using Value.induction with
  | leaf v h => rw [refresh_leaf h]; exact hv
  | tuple xs _ => exact hv.not_tuple.elim
  | list m xs ih =>
    obtain ⟨hself, hxs⟩ := fit_list.mp hv
    cases hl : R.lookup m with
    | some c =>
      simp only [Value.refresh, hl, Option.getD_some]
      exact (hR.fit m c hl).weaken
    | none =>
      simp only [Value.refresh, hl, Option.getD_none, refreshItems_eq_map]
      refine fit_list.mpr ⟨sane_list hself.marked fun y hy => ?_, fun y hy => ?_⟩
      · obtain ⟨x, hx, rfl⟩ := List.mem_map.mp hy
        exact (hself.items x hx).of_resembles ((hxs x hx).resembles_refresh hR)
      · obtain ⟨x, hx, rfl⟩ := List.mem_map.mp hy
        exact ih x hx (hxs x hx)
  | object m fs ih =>
    obtain ⟨hself, hfs⟩ := fit_object.mp hv
    have hres : ResemblesFields terms.editable fs (fs.map fun f => (f.1, f.2.refresh R)) :=
      List.forall₂_map_right_iff.mpr
        (List.forall₂_same.mpr fun f hf => ⟨rfl, (hfs f hf).resembles_refresh hR⟩)
    have hnone : R.lookup m = none := lookup_none hR (hself.uneditable rfl)
    simp only [Value.refresh, hnone, Option.getD_none, refreshFields_eq_map]
    refine fit_object.mpr ⟨hself.of_resembles hres hself.marked (hself.uneditable rfl), fun g hg => ?_⟩
    obtain ⟨f, hf, rfl⟩ := List.mem_map.mp hg
    exact ih f hf (hfs f hf)

end Value

namespace Revisions.Fit

variable {terms : Terms} {R : Revisions}

theorem nil : Revisions.Fit terms [] := ⟨nofun, nofun, nofun⟩

theorem single {m : Nat} {xs : List Value} (hm : terms.editable m = true) (hfit : (Value.list m xs).Fit terms true) :
    Revisions.Fit terms [(m, .list m xs)] := by
  have hlookup (k : Nat) (c : Value) (h : List.lookup k [(m, Value.list m xs)] = some c) : k = m ∧ c = .list m xs := by
    rw [List.lookup_cons] at h
    cases hk : k == m with
    | true => rw [hk] at h; exact ⟨by simpa using hk, (Option.some.inj h).symm⟩
    | false => rw [hk] at h; cases h
  refine ⟨fun k c h => ?_, fun k c h => ?_, fun k c h => ?_⟩
  · rw [(hlookup k c h).1]; exact hm
  · obtain ⟨rfl, rfl⟩ := hlookup k c h; exact ⟨xs, rfl⟩
  · obtain ⟨rfl, rfl⟩ := hlookup k c h; exact hfit

/-- **An edit of an terms.editable list keeps the revisions fit.** -/
theorem record {m : Nat} {xs : List Value} (hR : R.Fit terms) (hm : terms.editable m = true)
    (hfit : (Value.list m xs).Fit terms true) : Revisions.Fit terms (R.record m (.list m xs)) := by
  have hsingle := single hm hfit
  have hcases (k : Nat) (c : Value) (h : (R.record m (.list m xs)).lookup k = some c) :
      (k = m ∧ c = .list m xs) ∨ ∃ d, R.lookup k = some d ∧ c = d.refresh [(m, .list m xs)] := by
    by_cases hk : k = m
    · subst hk
      rw [Revisions.lookup_record_self] at h
      exact .inl ⟨rfl, (Option.some.inj h).symm⟩
    · rw [Revisions.lookup_record_ne R _ hk] at h
      obtain ⟨d, hd, rfl⟩ := Option.map_eq_some_iff.mp h
      exact .inr ⟨d, hd, rfl⟩
  refine ⟨fun k c h => ?_, fun k c h => ?_, fun k c h => ?_⟩
  · rcases hcases k c h with ⟨rfl, _⟩ | ⟨d, hd, _⟩
    · exact hm
    · exact hR.typed k d hd
  · rcases hcases k c h with ⟨rfl, rfl⟩ | ⟨d, hd, rfl⟩
    · exact ⟨xs, rfl⟩
    · obtain ⟨ys, rfl⟩ := hR.list k d hd
      rw [Value.refresh]
      cases hl : List.lookup k [(m, Value.list m xs)] with
      | none => exact ⟨_, rfl⟩
      | some c => exact hsingle.list k c hl
  · rcases hcases k c h with ⟨rfl, rfl⟩ | ⟨d, hd, rfl⟩
    · exact hfit
    · exact (hR.fit k d hd).refresh hsingle

end Revisions.Fit

/-! ## Marks -/

/-- The marks from `next` on are free: none of them is terms.editable, and neither is the absence of a mark. -/
structure Unused (terms : Terms) (next : Nat) : Prop where
  pos : 0 < next
  zero : terms.editable 0 = false
  fresh : ∀ m, next ≤ m → terms.editable m = false

theorem Unused.later {terms : Terms} {next last : Nat} (h : Unused terms next) (hle : next ≤ last) :
    Unused terms last :=
  ⟨Nat.lt_of_lt_of_le h.pos hle, h.zero, fun m hm => h.fresh m (Nat.le_trans hle hm)⟩

namespace Value

variable {terms : Terms}

mutual
/-- **Marks for what is new keep a value fit**, and do not change what it looks like. -/
theorem fit_stamp {next : Nat} (hnext : Unused terms next) : (v : Value) → v.Fit terms false →
    v.Resembles terms.editable (v.stamp next).1 ∧ (v.stamp next).1.Fit terms true
  | .null, _ | .bool _, _ | .int _, _ | .double _, _ | .text _, _ => ⟨.refl _, fit_leaf rfl⟩
  | .tuple xs, h => h.not_tuple.elim
  | .list m xs, h => by
    obtain ⟨hself, hxs⟩ := fit_list.mp h
    have hitems (n last : Nat) (ht : terms.editable n = terms.editable m) (hn : 0 < n) (hlast : Unused terms last) :
        (list m xs).Resembles terms.editable (list n (stampItems last xs).1) ∧
          (list n (stampItems last xs).1).Fit terms true := by
      have hall := fit_stampItems hlast xs hxs
      refine ⟨resembles_list ht fun _ hobj y hy => ?_, fit_list.mpr ⟨sane_list (fun _ => hn) fun y hy => ?_,
        fun y hy => ?_⟩⟩
      · obtain ⟨x, hx, hxy, _⟩ := exists_left_of_forall₂ hall hy
        exact hxy.isObject.trans (hobj x hx)
      · obtain ⟨x, hx, hxy, _⟩ := exists_left_of_forall₂ hall hy
        exact (hself.items x hx).of_resembles hxy
      · obtain ⟨x, hx, _, hy⟩ := exists_left_of_forall₂ hall hy
        exact hy
    rw [Value.stamp]
    by_cases hm : m = 0
    · rw [if_pos hm]
      refine hitems next (next + 1) ?_ hnext.pos (hnext.later (Nat.le_succ next))
      rw [hm, hnext.zero]
      exact hnext.fresh next (Nat.le_refl next)
    · rw [if_neg hm]
      exact hitems m next rfl (Nat.pos_of_ne_zero hm) hnext
  | .object m fs, h => by
    obtain ⟨hself, hfs⟩ := fit_object.mp h
    have hfields (n last : Nat) (ht : terms.editable n = false) (hn : 0 < n) (hlast : Unused terms last) :
        (object m fs).Resembles terms.editable (object n (stampFields last fs).1) ∧
          (object n (stampFields last fs).1).Fit terms true := by
      have hall := fit_stampFields hlast fs hfs
      have hres : ResemblesFields terms.editable fs (stampFields last fs).1 := hall.imp fun f g hfg => ⟨hfg.1, hfg.2.1⟩
      refine ⟨hres.object m n, fit_object.mpr ⟨hself.of_resembles hres (fun _ => hn) ht, fun g hg => ?_⟩⟩
      obtain ⟨f, hf, _, _, hg⟩ := exists_left_of_forall₂ hall hg
      exact hg
    rw [Value.stamp]
    by_cases hm : m = 0
    · rw [if_pos hm]
      exact hfields next (next + 1) (hnext.fresh next (Nat.le_refl next)) hnext.pos (hnext.later (Nat.le_succ next))
    · rw [if_neg hm]
      exact hfields m next (hself.uneditable rfl) (Nat.pos_of_ne_zero hm) hnext

theorem fit_stampItems {next : Nat} (hnext : Unused terms next) : (xs : List Value) → (∀ x ∈ xs, x.Fit terms false) →
    List.Forall₂ (fun x y => x.Resembles terms.editable y ∧ y.Fit terms true) xs (stampItems next xs).1
  | [], _ => .nil
  | v :: rest, h => by
    obtain ⟨hv, hrest⟩ := List.forall_mem_cons.mp h
    have hle := (count_marks_stamp Nat.one_pos next v).1
    exact .cons (fit_stamp hnext v hv) (fit_stampItems (hnext.later hle) rest hrest)

theorem fit_stampFields {next : Nat} (hnext : Unused terms next) : (fs : List (String × Value)) →
    (∀ f ∈ fs, f.2.Fit terms false) →
    List.Forall₂ (fun f g => g.1 = f.1 ∧ f.2.Resembles terms.editable g.2 ∧ g.2.Fit terms true) fs
      (stampFields next fs).1
  | [], _ => .nil
  | (key, v) :: rest, h => by
    obtain ⟨hv, hrest⟩ := List.forall_mem_cons.mp h
    have hle := (count_marks_stamp Nat.one_pos next v).1
    exact .cons ⟨rfl, fit_stamp hnext v hv⟩ (fit_stampFields (hnext.later hle) rest hrest)
end

end Value

/-! ## The types of the marks of a tree -/

namespace Value

mutual
/-- The marks in a value, each with whether what has it may be edited; `own` tells it of the value itself, if that is a
list. -/
def roles (own : Bool) : Value → List (Nat × Bool)
  | list mark items => (mark, own) :: rolesItems items
  | tuple items => (0, false) :: rolesItems items
  | object mark fields =>
    (mark, false) :: rolesFields ((object mark fields).isA .program) fields
  | _ => []

/-- The marks in the items of a list: a list in a list is not terms.editable. -/
def rolesItems : List Value → List (Nat × Bool)
  | [] => []
  | v :: rest => roles false v ++ rolesItems rest

/-- The marks in the fields of an object: a list is terms.editable if the object is a program. -/
def rolesFields (program : Bool) : List (String × Value) → List (Nat × Bool)
  | [] => []
  | (key, v) :: rest => roles (program && !Syntax.metadataKeys.contains key) v ++ rolesFields program rest
end

mutual
theorem roles_keys (own : Bool) : (v : Value) → (roles own v).map (·.1) = v.marks
  | .null | .bool _ | .int _ | .double _ | .text _ => by rw [marks_leaf rfl]; rfl
  | .list m xs => by rw [roles, marks_list, List.map_cons, rolesItems_keys xs]
  | .tuple xs => by rw [roles, marks_tuple, List.map_cons, rolesItems_keys xs]
  | .object m fs => by rw [roles, marks_object, List.map_cons, rolesFields_keys _ fs]

theorem rolesItems_keys : (xs : List Value) → (rolesItems xs).map (·.1) = marksItems xs
  | [] => rfl
  | v :: rest => by rw [rolesItems, List.map_append, roles_keys false v, rolesItems_keys rest, marksItems_cons]

theorem rolesFields_keys (program : Bool) : (fs : List (String × Value)) →
    (rolesFields program fs).map (·.1) = marksFields fs
  | [] => rfl
  | (key, v) :: rest => by
    rw [rolesFields, List.map_append, roles_keys _ v, rolesFields_keys program rest, marksFields_cons]
end

variable {editable : Nat → Bool}

variable {terms : Terms}

end Value

end EsmLift
