import EsmLift.Proofs.Parts
import Mathlib.Data.List.Forall2

/-!
# `Proofs.Pieces` — the statements that a statement is split into

A **piece** is a statement of a split declaration with its `kind` left open: all plain pieces of one declaration
get the same `kind`, by identity, and nothing else is shared between pieces. So what is said of a piece is said of
its own fields; the kind is put in by `Piece.value`.

## Contents

* `Require.specifier_ok`, `Load.toImport_ok`: the import of a load, by its parts;
* `Piece`, `Piece.From`: a piece is made of what was in the statement;
* `Syntax.copyKey_ok`, `Piece.From.copyKeys`: copied comments, as a change of fields;
* `Statement.split_ok`: the pieces of a statement, in different places of it;
* `Piece.place`, `Piece.Placed`, `Statement.split_parted`: the pieces with marks.
-/

namespace EsmLift

open Value

/-- A computation in two steps ends well if both steps do. -/
theorem bind_ok {ε α β : Type} {x : Except ε α} {f : α → Except ε β} {r : β} (h : x >>= f = .ok r) :
    ∃ a, x = .ok a ∧ f a = .ok r := by
  cases x with
  | error fault => cases h
  | ok a => exact ⟨a, rfl, h⟩

/-- The image of a result that ended well. -/
theorem map_ok {ε α β : Type} {x : Except ε α} {f : α → β} {r : β} (h : x.map f = .ok r) :
    ∃ a, x = .ok a ∧ f a = r := by
  cases x with
  | error fault => cases h
  | ok a => exact ⟨a, rfl, Except.ok.inj h⟩

/-- What stands on the right of a pairing has a partner on the left. -/
theorem exists_left_of_forall₂ {α β : Type} {R : α → β → Prop} {xs : List α} {ys : List β}
    (h : List.Forall₂ R xs ys) {y : β} (hy : y ∈ ys) : ∃ x ∈ xs, R x y := by
  induction h with
  | nil => exact absurd hy List.not_mem_nil
  | cons hR _ ih =>
    rcases List.mem_cons.mp hy with rfl | hy
    · exact ⟨_, List.mem_cons_self, hR⟩
    · obtain ⟨x, hx, hxy⟩ := ih hy
      exact ⟨x, List.mem_cons_of_mem _ hx, hxy⟩

/-! ## Imports -/

namespace Require

theorem get?_of_require {v w : Value} {key : String} (h : v.require key = .ok w) : v.get? key = some w := by
  cases v with
  | object m fs =>
    simp only [Value.require] at h
    show fs.lookup key = some w
    cases hl : fs.lookup key with
    | none => rw [hl] at h; cases h
    | some u => rw [hl] at h; exact congrArg some (Except.ok.inj h)
  | _ => cases h

/-- The specifier of an export: a default one if the export is called `default`. -/
theorem specifier_ok {localName imported s : Value} (h : specifier localName imported = .ok s) :
    ∃ name, imported.get? "name" = some name ∧
      s = if isDefault name then Syntax.importDefaultSpecifier localName
        else Syntax.importSpecifier localName imported := by
  obtain ⟨name, hname, h⟩ := bind_ok h
  refine ⟨name, get?_of_require hname, ?_⟩
  by_cases hd : isDefault name = true
  · rw [if_pos hd] at h ⊢; exact (Except.ok.inj h).symm
  · rw [if_neg hd] at h ⊢; exact (Except.ok.inj h).symm

/-- The specifiers of properties, one for each. -/
theorem propertySpecifiers_ok {ps ss : List Value} (h : propertySpecifiers ps = .ok ss) :
    List.Forall₂ (fun p s => specifier (p.at "value") (p.at "key") = .ok s) ps ss := by
  induction ps generalizing ss with
  | nil => cases h; exact .nil
  | cons p rest ih =>
    obtain ⟨s, hs, h⟩ := bind_ok h
    obtain ⟨ss', hrest, h⟩ := bind_ok h
    obtain ⟨localName, hlocal, hs⟩ := bind_ok hs
    obtain ⟨imported, himported, hs⟩ := bind_ok hs
    cases h
    refine .cons ?_ (ih hrest)
    rw [at_eq (get?_of_require hlocal), at_eq (get?_of_require himported), hs]

end Require

/-- A specifier that binds something to `localName`, and holds nothing but it and `imported`. -/
def Syntax.IsSpecifier (localName imported s : Value) : Prop :=
  s = Syntax.importDefaultSpecifier localName ∨ s = Syntax.importSpecifier localName imported

theorem Require.isSpecifier_of_ok {localName imported s : Value} (h : specifier localName imported = .ok s) :
    Syntax.IsSpecifier localName imported s := by
  obtain ⟨name, _, rfl⟩ := specifier_ok h
  by_cases hd : isDefault name = true
  · exact .inl (if_pos hd)
  · exact .inr (if_neg hd)

theorem Syntax.IsSpecifier.count_le {localName imported s : Value} (h : Syntax.IsSpecifier localName imported s)
    {m : Nat} (hm : 0 < m) : s.marks.count m ≤ localName.marks.count m + imported.marks.count m := by
  have h0 : (0 == m) = false := by simpa using Nat.ne_of_lt hm
  rcases h with rfl | rfl <;>
    simp [Syntax.importDefaultSpecifier, Syntax.importSpecifier, Value.new, NodeType.value, List.count_cons, h0,
      marks_leaf (v := .text _) rfl]

/-- Default specifiers first: the same specifiers in another order. -/
theorem Require.defaultsFirst_perm (ss : List Value) : (Require.defaultsFirst ss).Perm ss :=
  List.filter_append_perm _ ss

/-- The specifiers of properties hold the two names of each property. -/
theorem Require.count_specifiers_le {ps ss : List Value}
    (h : List.Forall₂ (fun p s => Require.specifier (p.at "value") (p.at "key") = .ok s) ps ss) {m : Nat}
    (hm : 0 < m) :
    (marksItems ss).count m ≤ (marksItems (ps.flatMap fun p => [p.at "value", p.at "key"])).count m := by
  induction h with
  | nil => exact Nat.le_refl _
  | cons hs _ ih =>
    have hle := (Require.isSpecifier_of_ok hs).count_le hm
    simp only [List.flatMap_cons, List.cons_append, List.nil_append, marksItems_cons, List.count_append]
    omega

/-- **The import of a load holds its parts and nothing else**, each part at most once. -/
theorem Load.toImport_ok {l : Load} {n : Value} (h : l.toImport = .ok n) :
    ∃ specifiers source, n = Syntax.importDeclaration specifiers source ∧ source ∈ l.parts ∧
      (∀ s ∈ specifiers, ∃ localName ∈ l.parts, ∃ imported ∈ l.parts, Syntax.IsSpecifier localName imported s) ∧
      ∀ m, 0 < m → (marksItems specifiers).count m + source.marks.count m ≤ (marksItems l.parts).count m := by
  cases l with
  | whole id source =>
    have hspec : Syntax.IsSpecifier id .null (Syntax.importDefaultSpecifier id) := .inl rfl
    cases h
    refine ⟨_, _, rfl, by simp [parts], fun s hs => ?_, fun m hm => ?_⟩
    · rw [List.mem_singleton.mp hs]
      exact ⟨id, by simp [parts], id, by simp [parts], .inl rfl⟩
    · have hle := hspec.count_le hm
      have hnull : Value.null.marks.count m = 0 := rfl
      simp only [parts, marksItems_cons, marksItems_nil, List.count_append, List.count_nil]
      omega
  | exports ps source =>
    obtain ⟨ss, hss, rfl⟩ := map_ok h
    have hall := Require.propertySpecifiers_ok hss
    have hperm := Require.defaultsFirst_perm ss
    refine ⟨_, _, rfl, by simp [parts], fun s hs => ?_, fun m hm => ?_⟩
    · have hs' : s ∈ ss := hperm.mem_iff.mp hs
      obtain ⟨p, hp, hps⟩ := exists_left_of_forall₂ hall hs'
      refine ⟨p.at "value", ?_, p.at "key", ?_, Require.isSpecifier_of_ok hps⟩
      · exact List.mem_append_left _ (List.mem_flatMap.mpr ⟨p, hp, by simp⟩)
      · exact List.mem_append_left _ (List.mem_flatMap.mpr ⟨p, hp, by simp⟩)
    · have hcount := (hperm.flatMap_right marks).count_eq m
      have hle := Require.count_specifiers_le hall hm
      simp only [parts, marksItems_append, marksItems_cons, marksItems_nil, List.count_append, List.count_nil]
      unfold marksItems at hcount hle ⊢
      omega
  | one id property source =>
    obtain ⟨s, hs, rfl⟩ := map_ok h
    have hspec := Require.isSpecifier_of_ok hs
    refine ⟨_, _, rfl, by simp [parts], fun s' hs' => ?_, fun m hm => ?_⟩
    · rw [List.mem_singleton.mp hs']
      exact ⟨id, by simp [parts], property, by simp [parts], hspec⟩
    · have hle := hspec.count_le hm
      simp only [parts, marksItems_cons, marksItems_nil, List.count_append, List.count_nil]
      omega

/-! ## Pieces -/

/-- A statement made from one declarator. A plain one is a variable declaration whose kind is left open; one that
is not plain is an import. -/
structure Piece where
  plain : Bool
  mark : Nat
  fields : Fields

namespace Piece

/-- The fields of a piece that come before its own. -/
def head (kind : Value) (p : Piece) : Fields :=
  if p.plain then [("type", NodeType.variableDeclaration.value), ("kind", kind)] else []

/-- The statement that a piece is for a given kind. -/
def value (kind : Value) (p : Piece) : Value := .object p.mark (p.head kind ++ p.fields)

/-- What belongs to the piece alone. -/
def own (p : Piece) : Value := .object p.mark p.fields

/-- The piece is new, is no candidate, and is made of what is in the statement `e` with the declarators `ds`. -/
structure From (e : Value) (ds : List Value) (p : Piece) : Prop where
  unmarked : p.mark = 0
  compounds : ∀ c ∈ compoundsFields p.fields,
    (c.mark = 0 ∧ c.isTuple = false ∧ c.isA .variableDeclaration = false) ∨ c ∈ e.compounds
  pending : ∀ k ∈ pendingFields false p.fields, k ∈ pendingItems false ds
  depth : depthFields p.fields ≤ 1 + depthItems ds
  node : ∀ kind, ∃ t : NodeType, t ≠ .program ∧ (p.value kind).isA t = true
  imports : p.plain = false → ∀ kind, (p.value kind).isA .importDeclaration = true
  quiet : ∀ kind, Statement.isCandidate (p.value kind) = .ok false

end Piece

namespace Syntax.IsSpecifier

variable {localName imported s : Value}

theorem unmarked (h : IsSpecifier localName imported s) :
    s.mark = 0 ∧ s.isTuple = false ∧ s.isA .variableDeclaration = false := by
  rcases h with rfl | rfl <;> exact ⟨rfl, rfl, rfl⟩

theorem compounds (h : IsSpecifier localName imported s) {c : Value} (hc : c ∈ s.compounds) :
    c = s ∨ c ∈ localName.compounds ∨ c ∈ imported.compounds := by
  rcases h with rfl | rfl
  · rcases mem_compounds_object.mp hc with rfl | ⟨f, hf, hc⟩
    · exact .inl rfl
    · have hf' : f = ("type", NodeType.importDefaultSpecifier.value) ∨ f = ("local", localName) := by simpa using hf
      rcases hf' with rfl | rfl
      · exact absurd hc List.not_mem_nil
      · exact .inr (.inl hc)
  · rcases mem_compounds_object.mp hc with rfl | ⟨f, hf, hc⟩
    · exact .inl rfl
    · have hf' : f = ("type", NodeType.importSpecifier.value) ∨ f = ("local", localName) ∨
          f = ("imported", imported) := by simpa using hf
      rcases hf' with rfl | rfl | rfl
      · exact absurd hc List.not_mem_nil
      · exact .inr (.inl hc)
      · exact .inr (.inr hc)

theorem pending (h : IsSpecifier localName imported s) {k : Nat} (hk : k ∈ s.pending) :
    k ∈ pendingSlot false localName ∨ k ∈ pendingSlot false imported := by
  rcases h with rfl | rfl
  · have heq : (importDefaultSpecifier localName).pending = pendingSlot false localName ++ [] := rfl
    rw [heq, List.append_nil] at hk
    exact .inl hk
  · have heq : (importSpecifier localName imported).pending
        = pendingSlot false localName ++ (pendingSlot false imported ++ []) := rfl
    rw [heq, List.append_nil] at hk
    exact List.mem_append.mp hk

theorem depth_le (h : IsSpecifier localName imported s) : s.depth ≤ 1 + max localName.depth imported.depth := by
  rcases h with rfl | rfl
  · have heq : (importDefaultSpecifier localName).depth = 1 + max 0 (max localName.depth 0) := rfl
    omega
  · have heq : (importSpecifier localName imported).depth
        = 1 + max 0 (max localName.depth (max imported.depth 0)) := rfl
    omega

end Syntax.IsSpecifier

namespace Piece

variable {e d : Value} {ds : List Value}

/-- The import of a declarator as a piece. -/
theorem from_load {l : Load} {n : Value} (hd : d ∈ ds) (he : ∀ c ∈ d.compounds, c ∈ e.compounds)
    (hl : Require.load? d = some l) (h : l.toImport = .ok n) :
    ∃ p : Piece, p.From e ds ∧ (∀ kind, p.value kind = n) ∧
      ∀ m, 0 < m → p.own.marks.count m ≤ d.marks.count m := by
  obtain ⟨ss, source, rfl, hsource, hss, hcount⟩ := Load.toImport_ok h
  have hwithin := Require.within_of_load hl
  have hnode : d.isNode = true := isNode_of_isA (Require.load?_cases hl).1
  -- a pending mark of a part is one of the declarator, and so of the declarators
  have hpend (w : Value) (hw : w ∈ l.parts) (k : Nat) (hk : k ∈ pendingSlot false w) : k ∈ pendingItems false ds :=
    mem_pendingItems hd hnode (pendingSlot_node false hnode ▸ (hwithin w hw).pending k hk)
  refine ⟨⟨false, 0, [("type", NodeType.importDeclaration.value), ("specifiers", .list 0 ss), ("source", source)]⟩,
    ⟨rfl, ?_, ?_, ?_, fun _ => ⟨.importDeclaration, by decide, rfl⟩, fun _ _ => rfl, fun _ => rfl⟩, fun _ => rfl,
    fun m hm => ?_⟩
  · intro c hc
    rw [compoundsFields_eq] at hc
    obtain ⟨f, hf, hc⟩ := List.mem_flatMap.mp hc
    have hf' : f = ("type", NodeType.importDeclaration.value) ∨ f = ("specifiers", .list 0 ss) ∨
        f = ("source", source) := by simpa using hf
    rcases hf' with rfl | rfl | rfl
    · exact absurd hc List.not_mem_nil
    · rcases mem_compounds_list.mp hc with rfl | ⟨s, hs, hc⟩
      · exact .inl ⟨rfl, rfl, rfl⟩
      · obtain ⟨a, ha, b, hb, hspec⟩ := hss s hs
        rcases hspec.compounds hc with rfl | hc | hc
        · exact .inl hspec.unmarked
        · exact .inr (he c ((hwithin a ha).compounds c hc))
        · exact .inr (he c ((hwithin b hb).compounds c hc))
    · exact .inr (he c ((hwithin source hsource).compounds c hc))
  · intro k hk
    have heq : pendingFields false [("type", NodeType.importDeclaration.value), ("specifiers", .list 0 ss),
        ("source", source)] = pendingItems false ss ++ (pendingSlot false source ++ []) := rfl
    rw [heq, List.append_nil] at hk
    rcases List.mem_append.mp hk with hk | hk
    · obtain ⟨s, hs, _, hk⟩ := exists_of_pendingItems hk
      obtain ⟨a, ha, b, hb, hspec⟩ := hss s hs
      rcases hspec.pending hk with hk | hk
      · exact hpend a ha k hk
      · exact hpend b hb k hk
    · exact hpend source hsource k hk
  · have heq : depthFields [("type", NodeType.importDeclaration.value), ("specifiers", .list 0 ss),
        ("source", source)] = max 0 (max (1 + depthItems ss) (max source.depth 0)) := rfl
    have hss' : depthItems ss ≤ d.depth := by
      refine depthItems_le fun s hs => ?_
      obtain ⟨a, ha, b, hb, hspec⟩ := hss s hs
      have hda := (hwithin a ha).depth
      have hdb := (hwithin b hb).depth
      have hle := hspec.depth_le
      omega
    have hds := (hwithin source hsource).depth
    have hd := depth_le_items hd
    rw [heq]
    omega
  · have h0 : (0 == m) = false := by simpa using Nat.ne_of_lt hm
    have hle := hcount m hm
    have hparts := Require.count_parts_le m hl
    simp only [own, marks_object, marksFields_cons, marksFields_nil, marks_list, List.count_append, List.count_cons,
      List.count_nil, h0, NodeType.value, marks_leaf (v := .text _) rfl]
    simp only [Bool.false_eq_true, if_false]
    omega

/-- A declarator that loads nothing, as a declaration of its own. -/
theorem from_plain (hd : d ∈ ds) (he : ∀ c ∈ d.compounds, c ∈ e.compounds) (hl : Require.load? d = none) :
    ∃ p : Piece, p.From e ds ∧ (∀ kind, p.value kind = Syntax.variableDeclaration kind [d]) ∧
      ∀ m, 0 < m → p.own.marks.count m ≤ d.marks.count m := by
  refine ⟨⟨true, 0, [("declarations", .list 0 [d])]⟩, ⟨rfl, ?_, ?_, ?_, fun _ => ⟨.variableDeclaration, by decide, rfl⟩,
    fun h => absurd h.symm Bool.false_ne_true, fun kind => ?_⟩, fun _ => rfl, fun m hm => ?_⟩
  · intro c hc
    rw [compoundsFields_eq] at hc
    obtain ⟨f, hf, hc⟩ := List.mem_flatMap.mp hc
    rw [List.mem_singleton.mp hf] at hc
    rcases mem_compounds_list.mp hc with rfl | ⟨x, hx, hc⟩
    · exact .inl ⟨rfl, rfl, rfl⟩
    · rw [List.mem_singleton.mp hx] at hc
      exact .inr (he c hc)
  · intro k hk
    have heq : pendingFields false [("declarations", .list 0 [d])] = pendingItems false [d] ++ [] := rfl
    rw [heq, List.append_nil] at hk
    obtain ⟨x, hx, hn, hk⟩ := exists_of_pendingItems hk
    rw [List.mem_singleton.mp hx] at hn hk
    exact mem_pendingItems hd hn hk
  · have heq : depthFields [("declarations", .list 0 [d])] = max (1 + max d.depth 0) 0 := rfl
    have hd := depth_le_items hd
    rw [heq]
    omega
  · have hno : Require.isDeclarator d = false := by rw [Require.isDeclarator_eq, hl]; rfl
    show (Except.ok (Require.isDeclarator d || false) : Except Fault Bool) = .ok false
    rw [hno]
    rfl
  · have h0 : (0 == m) = false := by simpa using Nat.ne_of_lt hm
    simp [own, List.count_cons, h0]

/-- The statement of a declarator is a piece. -/
theorem from_statement {kind n : Value} (hd : d ∈ ds) (he : ∀ c ∈ d.compounds, c ∈ e.compounds)
    (h : Require.statement kind d = .ok n) :
    ∃ p : Piece, p.From e ds ∧ p.value kind = n ∧ ∀ m, 0 < m → p.own.marks.count m ≤ d.marks.count m := by
  rw [Require.statement_eq] at h
  cases hl : Require.load? d with
  | none =>
    rw [hl] at h
    obtain ⟨p, hp, hvalue, hcount⟩ := from_plain hd he hl
    exact ⟨p, hp, (hvalue kind).trans (Except.ok.inj h), hcount⟩
  | some l =>
    rw [hl] at h
    obtain ⟨p, hp, hvalue, hcount⟩ := from_load hd he hl h
    exact ⟨p, hp, hvalue kind, hcount⟩

/-- The statements of the declarators are pieces, in different places. -/
theorem from_pieces {kind : Value} {ns : List Value} (todo : List Value) (hds : ∀ d ∈ todo, d ∈ ds)
    (he : ∀ d ∈ ds, ∀ c ∈ d.compounds, c ∈ e.compounds) (h : Statement.pieces kind todo = .ok ns) :
    ∃ ps : List Piece, (∀ p ∈ ps, p.From e ds) ∧ ps.map (value kind) = ns ∧
      ∀ m, 0 < m → (marksItems (ps.map own)).count m ≤ (marksItems todo).count m := by
  induction todo generalizing ns with
  | nil =>
    cases h
    exact ⟨[], fun p hp => absurd hp List.not_mem_nil, rfl, fun m _ => Nat.le_refl _⟩
  | cons d rest ih =>
    obtain ⟨n, hn, h⟩ := bind_ok h
    obtain ⟨ns', hns, h⟩ := bind_ok h
    cases h
    obtain ⟨hd, hrest⟩ := List.forall_mem_cons.mp hds
    obtain ⟨p, hp, hvalue, hcount⟩ := from_statement hd (he d hd) hn
    obtain ⟨ps, hps, hvalues, hcounts⟩ := ih hrest hns
    refine ⟨p :: ps, List.forall_mem_cons.mpr ⟨hp, hps⟩, by rw [List.map_cons, hvalue, hvalues], fun m hm => ?_⟩
    have h1 := hcount m hm
    have h2 := hcounts m hm
    simp only [List.map_cons, marksItems_cons, List.count_append]
    omega

end Piece
/-! ## Copied comments -/

namespace Fields

theorem lookup_put_ne (fs : Fields) {key k : String} (v : Value) (h : k ≠ key) :
    (put fs key v).lookup k = fs.lookup k := by
  induction fs with
  | nil =>
    have hk : (k == key) = false := by simpa using h
    rw [put, List.lookup_cons, hk]
  | cons f rest ih =>
    obtain ⟨j, w⟩ := f
    rw [put]
    by_cases hj : j = key
    · have hk : (k == j) = false := by simpa [hj] using h
      rw [if_pos hj, List.lookup_cons, List.lookup_cons, hk]
    · rw [if_neg hj, List.lookup_cons, List.lookup_cons, ih]

theorem put_append (fs gs : Fields) {key : String} (v : Value) (h : ∀ f ∈ fs, f.1 ≠ key) :
    put (fs ++ gs) key v = fs ++ put gs key v := by
  induction fs with
  | nil => rfl
  | cons f rest ih =>
    obtain ⟨hf, hrest⟩ := List.forall_mem_cons.mp h
    rw [List.cons_append, put, if_neg hf, ih hrest, List.cons_append]

theorem lookup_append_of_absent (fs gs : Fields) {key : String} (h : ∀ f ∈ fs, f.1 ≠ key) :
    (fs ++ gs).lookup key = gs.lookup key := by
  induction fs with
  | nil => rfl
  | cons f rest ih =>
    obtain ⟨hf, hrest⟩ := List.forall_mem_cons.mp h
    have hne : (key == f.1) = false := by simpa using fun h => hf h.symm
    rw [List.cons_append, List.lookup_cons, hne]
    exact ih hrest

theorem compounds_put {fs : Fields} {key : String} {v c : Value} (h : c ∈ compoundsFields (put fs key v)) :
    c ∈ compoundsFields fs ∨ c ∈ v.compounds := by
  induction fs with
  | nil =>
    rw [put, compoundsFields, compoundsFields, List.append_nil] at h
    exact .inr h
  | cons f rest ih =>
    obtain ⟨k, w⟩ := f
    rw [put] at h
    rw [compoundsFields]
    by_cases hk : k = key
    · rw [if_pos hk, compoundsFields] at h
      exact (List.mem_append.mp h).symm.imp (List.mem_append_right _) id
    · rw [if_neg hk, compoundsFields] at h
      rcases List.mem_append.mp h with h | h
      · exact .inl (List.mem_append_left _ h)
      · exact (ih h).imp (List.mem_append_right _) id

theorem count_put (fs : Fields) (key : String) (v : Value) (m : Nat) :
    (marksFields (put fs key v)).count m + ((fs.lookup key).getD .null).marks.count m
      = (marksFields fs).count m + v.marks.count m := by
  have heq := sum_put (fun _ v => v.marks.count m) (fun _ => rfl) fs key v
  rw [marksFields, marksFields, List.count_flatMap, List.count_flatMap]
  exact heq

/-- Metadata is not walked through. -/
theorem pending_put (fs : Fields) {key : String} (v : Value) (hk : Syntax.metadataKeys.contains key = true) :
    pendingFields false (put fs key v) = pendingFields false fs := by
  induction fs with
  | nil =>
    show pendingFields false [(key, v)] = []
    rw [pendingFields, if_pos hk]
    rfl
  | cons f rest ih =>
    obtain ⟨k, w⟩ := f
    rw [put]
    by_cases h : k = key
    · rw [if_pos h, pendingFields, pendingFields, if_pos (h ▸ hk), if_pos (h ▸ hk)]
    · rw [if_neg h, pendingFields, pendingFields, ih]

theorem depth_put (fs : Fields) {key : String} (v : Value) (hk : Syntax.metadataKeys.contains key = true) :
    depthFields (put fs key v) = depthFields fs := by
  induction fs with
  | nil =>
    show depthFields [(key, v)] = 0
    rw [depthFields, if_pos hk]
    rfl
  | cons f rest ih =>
    obtain ⟨k, w⟩ := f
    rw [put]
    by_cases h : k = key
    · rw [if_pos h, depthFields, depthFields, if_pos (h ▸ hk), if_pos (h ▸ hk)]
    · rw [if_neg h, depthFields, depthFields, ih]

end Fields

/-- What is under a key is in the object. -/
theorem Value.compounds_at {v c : Value} {key : String} (hc : c ∈ (v.at key).compounds) : c ∈ v.compounds := by
  cases v with
  | object n gs =>
    rw [Value.at_object] at hc
    rcases hl : gs.lookup key with _ | w
    · rw [hl] at hc; exact absurd hc List.not_mem_nil
    · rw [hl] at hc; exact mem_compounds_object.mpr (.inr ⟨_, Fields.mem_of_lookup hl, hc⟩)
  | _ => exact absurd hc List.not_mem_nil

/-- The items of a value are parts of it, in different places. -/
theorem Value.items_ok {v : Value} {xs : List Value} (h : v.items = .ok xs) :
    (∀ x ∈ xs, ∀ c ∈ x.compounds, c ∈ v.compounds) ∧ ∀ m, (marksItems xs).count m ≤ v.marks.count m := by
  -- characters and keys are leaves
  have hleaves {α : Type} (g : α → String) (ys : List α) (u : Value)
      (hxs : xs = ys.map fun y => Value.text (g y)) :
      (∀ x ∈ xs, ∀ c ∈ x.compounds, c ∈ u.compounds) ∧ ∀ m, (marksItems xs).count m ≤ u.marks.count m := by
    have hnone (x : Value) (hx : x ∈ xs) : x.compounds = [] := by
      rw [hxs] at hx
      obtain ⟨y, _, rfl⟩ := List.mem_map.mp hx
      rfl
    have hmarks : marksItems xs = [] := by
      refine List.flatMap_eq_nil_iff.mpr fun x hx => ?_
      rw [Value.marks, hnone x hx]
      rfl
    refine ⟨fun x hx c hc => ?_, fun m => ?_⟩
    · rw [hnone x hx] at hc
      exact absurd hc List.not_mem_nil
    · rw [hmarks]
      exact Nat.zero_le _
  cases v with
  | list k ys =>
    cases h
    refine ⟨fun x hx c hc => mem_compounds_list.mpr (.inr ⟨x, hx, hc⟩), fun m => ?_⟩
    rw [marks_list, List.count_cons]
    exact Nat.le_add_right _ _
  | tuple ys =>
    cases h
    refine ⟨fun x hx c hc => mem_compounds_tuple.mpr (.inr ⟨x, hx, hc⟩), fun m => ?_⟩
    rw [marks_tuple, List.count_cons]
    exact Nat.le_add_right _ _
  | text s => exact hleaves Char.toString s.toList _ (Except.ok.inj h).symm
  | object k fs => exact hleaves Prod.fst fs _ (Except.ok.inj h).symm
  | _ => cases h

/-- The items under a key are parts of what stands there. -/
theorem Fields.items_of_lookup {fs : Fields} {key : String} {xs : List Value}
    (h : ((fs.lookup key).getD (.newList [])).items = .ok xs) :
    (∀ x ∈ xs, ∀ c ∈ x.compounds, c ∈ ((fs.lookup key).getD .null).compounds) ∧
      ∀ m, (marksItems xs).count m ≤ ((fs.lookup key).getD .null).marks.count m := by
  rcases hl : fs.lookup key with _ | w
  · rw [hl] at h
    cases h
    exact ⟨fun x hx => absurd hx List.not_mem_nil, fun m => Nat.zero_le _⟩
  · rw [hl] at h
    exact Value.items_ok h

/-- Copying comments puts a new list in front, or changes nothing. -/
theorem Syntax.copyKey_ok {source t : Value} {m : Nat} {fs : Fields} {key : String}
    (h : copyKey source (.object m fs) key = .ok t) :
    t = .object m fs ∨ ∃ copied own, (source.at key).items = .ok copied ∧
      ((fs.lookup key).getD (.newList [])).items = .ok own ∧
      t = .object m (Fields.put fs key (.list 0 (copied ++ own))) := by
  obtain ⟨comments, hcomments, h⟩ := bind_ok h
  have hat : comments = source.at key := by
    cases source with
    | object n gs => exact (Except.ok.inj hcomments).symm
    | _ => cases hcomments
  by_cases ht : comments.truthy = true
  · rw [if_pos ht] at h
    obtain ⟨copied, hcopied, h⟩ := bind_ok h
    obtain ⟨own, hown, h⟩ := bind_ok h
    exact .inr ⟨copied, own, hat ▸ hcopied, hown, (Except.ok.inj h).symm⟩
  · rw [if_neg ht] at h
    exact .inl (Except.ok.inj h).symm

namespace Statement

/-- Copied comments change nothing else in a statement. -/
theorem get?_copyKeys {e s t : Value} (hs : s.isObject = true) (keys : List String)
    (hkeys : ∀ key ∈ keys, Syntax.metadataKeys.contains key = true) (h : Syntax.copyKeys e s keys = (t, none))
    (key : String) (hk : Syntax.metadataKeys.contains key = false) : t.get? key = s.get? key := by
  induction keys generalizing s with
  | nil =>
    cases h
    rfl
  | cons k rest ih =>
    obtain ⟨hmeta, hrest⟩ := List.forall_mem_cons.mp hkeys
    rw [Syntax.copyKeys] at h
    cases s with
    | object m fs =>
      cases hc : Syntax.copyKey e (.object m fs) k with
      | error fault => rw [hc] at h; cases h
      | ok s' =>
        rw [hc] at h
        rcases Syntax.copyKey_ok hc with rfl | ⟨copied, own, _, _, rfl⟩
        · exact ih rfl hrest h
        · rw [ih rfl hrest h]
          apply Fields.lookup_put_ne
          rintro rfl
          rw [hmeta] at hk
          cases hk
    | _ => cases hs

/-- Whether a statement is a candidate is decided by its type and its declarations. -/
theorem isCandidate_congr {m n : Nat} {fs gs : Fields} (ht : gs.lookup "type" = fs.lookup "type")
    (hd : gs.lookup "declarations" = fs.lookup "declarations") :
    isCandidate (.object n gs) = isCandidate (.object m fs) := by
  have hA : (Value.object n gs).isA .variableDeclaration = (Value.object m fs).isA .variableDeclaration :=
    Value.isA_congr (v := .object n gs) (w := .object m fs) ht _
  rw [isCandidate_object, isCandidate_object, hA, hd]

end Statement

namespace Piece

variable {e : Value} {ds : List Value}

theorem head_keys {kind : Value} {p : Piece} {key : String} (hk : Syntax.metadataKeys.contains key = true) :
    ∀ f ∈ p.head kind, f.1 ≠ key := by
  intro f hf hkey
  have hf' : f.1 = "type" ∨ f.1 = "kind" := by
    unfold head at hf
    split at hf
    · have h : f = ("type", NodeType.variableDeclaration.value) ∨ f = ("kind", kind) := by simpa using hf
      exact h.imp (fun h => by rw [h]) fun h => by rw [h]
    · exact absurd hf List.not_mem_nil
  rw [← hkey] at hk
  rcases hf' with h | h <;> rw [h] at hk <;> exact absurd hk (by decide)

/-- A piece with one more list of comments. -/
theorem From.put {p : Piece} (h : p.From e ds) {key : String} (xs : List Value)
    (hk : Syntax.metadataKeys.contains key = true) (hxs : ∀ x ∈ xs, ∀ c ∈ x.compounds,
      (c.mark = 0 ∧ c.isTuple = false ∧ c.isA .variableDeclaration = false) ∨ c ∈ e.compounds) :
    Piece.From e ds { p with fields := Fields.put p.fields key (.list 0 xs) } := by
  have hvalue (kind : Value) : value kind { p with fields := Fields.put p.fields key (.list 0 xs) }
      = .object p.mark (Fields.put (p.head kind ++ p.fields) key (.list 0 xs)) := by
    rw [Fields.put_append _ _ _ (head_keys hk)]
    rfl
  have hne (k : String) (h : Syntax.metadataKeys.contains k = false) : k ≠ key := by
    rintro rfl
    rw [hk] at h
    cases h
  have hisA (t : NodeType) (kind : Value) (hA : (p.value kind).isA t = true) :
      (value kind { p with fields := Fields.put p.fields key (.list 0 xs) }).isA t = true := by
    rw [hvalue, Value.isA_iff]
    show (Fields.put _ _ _).lookup "type" = _
    rw [Fields.lookup_put_ne _ _ (hne "type" (by decide))]
    exact Value.isA_iff.mp hA
  refine ⟨h.unmarked, fun c hc => ?_, fun k hc => ?_, ?_, fun kind => ?_, fun hplain kind => ?_, fun kind => ?_⟩
  · rcases Fields.compounds_put hc with hc | hc
    · exact h.compounds c hc
    · rcases mem_compounds_list.mp hc with rfl | ⟨x, hx, hc⟩
      · exact .inl ⟨rfl, rfl, rfl⟩
      · exact hxs x hx c hc
  · rw [Fields.pending_put _ _ hk] at hc
    exact h.pending k hc
  · rw [Fields.depth_put _ _ hk]
    exact h.depth
  · obtain ⟨t, ht, hA⟩ := h.node kind
    exact ⟨t, ht, hisA t kind hA⟩
  · exact hisA .importDeclaration kind (h.imports hplain kind)
  · rw [hvalue, Statement.isCandidate_congr (Fields.lookup_put_ne _ _ (hne "type" (by decide)))
      (Fields.lookup_put_ne _ _ (hne "declarations" (by decide)))]
    exact h.quiet kind

/-- A piece that got the comments of its statement under one key is a piece. -/
theorem From.copyKey {p : Piece} (h : p.From e ds) {kind t : Value} {key : String}
    (hk : Syntax.metadataKeys.contains key = true) (ht : Syntax.copyKey e (p.value kind) key = .ok t) :
    ∃ q : Piece, q.From e ds ∧ q.value kind = t ∧
      ∀ m, 0 < m → q.own.marks.count m ≤ p.own.marks.count m + (e.at key).marks.count m := by
  rcases Syntax.copyKey_ok ht with rfl | ⟨copied, old, hcopied, hold, rfl⟩
  · exact ⟨p, h, rfl, fun m _ => Nat.le_add_right _ _⟩
  · rw [Fields.lookup_append_of_absent _ _ (head_keys hk)] at hold
    obtain ⟨hcopied, hcopiedCount⟩ := Value.items_ok hcopied
    obtain ⟨hold, holdCount⟩ := Fields.items_of_lookup hold
    refine ⟨_, h.put (copied ++ old) hk fun x hx c hc => ?_, ?_, fun m hm => ?_⟩
    · rcases List.mem_append.mp hx with hx | hx
      · exact .inr (compounds_at (hcopied x hx c hc))
      · have hc := hold x hx c hc
        rcases hl : p.fields.lookup key with _ | w
        · rw [hl] at hc; exact absurd hc List.not_mem_nil
        · rw [hl] at hc
          refine h.compounds c ?_
          rw [compoundsFields_eq]
          exact List.mem_flatMap.mpr ⟨_, Fields.mem_of_lookup hl, hc⟩
    · show Value.object _ (p.head kind ++ Fields.put p.fields key _) = _
      rw [Fields.put_append _ _ _ (head_keys hk)]
    · have h0 : (0 == m) = false := by simpa using Nat.ne_of_lt hm
      have hput := Fields.count_put p.fields key (.list 0 (copied ++ old)) m
      have h1 := hcopiedCount m
      have h2 := holdCount m
      rw [marks_list, List.count_cons, h0, marksItems_append, List.count_append] at hput
      simp only [Bool.false_eq_true, if_false] at hput
      simp only [own, marks_object, List.count_cons]
      omega

/-- A piece that got all comments of its statement is a piece. -/
theorem From.copyKeys {p : Piece} (h : p.From e ds) {kind t : Value} (keys : List String)
    (hkeys : ∀ key ∈ keys, Syntax.metadataKeys.contains key = true)
    (ht : Syntax.copyKeys e (p.value kind) keys = (t, none)) :
    ∃ q : Piece, q.From e ds ∧ q.value kind = t ∧
      ∀ m, 0 < m → q.own.marks.count m ≤ p.own.marks.count m + (marksItems (keys.map e.at)).count m := by
  induction keys generalizing p with
  | nil =>
    cases ht
    exact ⟨p, h, rfl, fun m _ => Nat.le_refl _⟩
  | cons key rest ih =>
    obtain ⟨hkey, hrest⟩ := List.forall_mem_cons.mp hkeys
    rw [Syntax.copyKeys] at ht
    cases hc : Syntax.copyKey e (p.value kind) key with
    | error fault => rw [hc] at ht; cases ht
    | ok t' =>
      rw [hc] at ht
      obtain ⟨q, hq, rfl, hqcount⟩ := h.copyKey hkey hc
      obtain ⟨r, hr, hvalue, hrcount⟩ := ih hq hrest ht
      refine ⟨r, hr, hvalue, fun m hm => ?_⟩
      have h1 := hqcount m hm
      have h2 := hrcount m hm
      rw [List.map_cons, marksItems_cons, List.count_append]
      omega

end Piece
/-! ## Splitting -/

namespace Statement

/-- The comments of a statement go to the first of its pieces. -/
theorem commented_ok {e kind : Value} {ds : List Value} {ps : List Piece} {ns : List Value}
    (hps : ∀ p ∈ ps, p.From e ds) (h : commented e (ps.map (Piece.value kind)) = .ok ns) :
    ∃ qs : List Piece, (∀ q ∈ qs, q.From e ds) ∧ ns = qs.map (Piece.value kind) ∧
      ∀ m, 0 < m → (marksItems (qs.map Piece.own)).count m
        ≤ (marksItems (ps.map Piece.own)).count m + (marksItems (Syntax.commentKeys.map e.at)).count m := by
  cases ps with
  | nil =>
    cases h
    exact ⟨[], hps, rfl, fun m _ => Nat.le_add_right _ _⟩
  | cons p rest =>
    obtain ⟨hp, hrest⟩ := List.forall_mem_cons.mp hps
    rw [List.map_cons, commented] at h
    rcases hc : Syntax.copyComments e (p.value kind) with ⟨t, _ | fault⟩
    · rw [hc] at h
      obtain ⟨q, hq, rfl, hcount⟩ := hp.copyKeys Syntax.commentKeys (by decide) hc
      refine ⟨q :: rest, List.forall_mem_cons.mpr ⟨hq, hrest⟩, (Except.ok.inj h).symm, fun m hm => ?_⟩
      have hle := hcount m hm
      simp only [List.map_cons, marksItems_cons, List.count_append] at hle ⊢
      omega
    · rw [hc] at h
      cases h

/-- **The pieces of a statement.** They are made of what is in the statement, all of it in different places, with
the kind of the statement put into each of them. -/
theorem split_ok {keepComments : Bool} {e : Value} {r : Replacement} (h : split keepComments e = .ok r) :
    r.target = e ∧ ∃ kind declarations ds, ∃ ps : List Piece,
      e.get? "kind" = some kind ∧ e.get? "declarations" = some declarations ∧ declarations.items = .ok ds ∧
      (∀ p ∈ ps, p.From e ds) ∧ r.nodes = ps.map (Piece.value kind) ∧
      ∀ m, 0 < m → (marksItems (ps.map Piece.own)).count m + kind.marks.count m ≤ e.marks.count m := by
  obtain ⟨kind, hkind, h⟩ := bind_ok h
  obtain ⟨declarations, hdecl, h⟩ := bind_ok h
  obtain ⟨ds, hds, h⟩ := bind_ok h
  obtain ⟨ns, hns, h⟩ := bind_ok h
  have hkind := Require.get?_of_require hkind
  have hdecl := Require.get?_of_require hdecl
  obtain ⟨hdsIn, hdsCount⟩ := Value.items_ok hds
  have hin (d : Value) (hd : d ∈ ds) (c : Value) (hc : c ∈ d.compounds) : c ∈ e.compounds := by
    obtain ⟨m, fs, rfl, hl⟩ := Value.exists_of_get? hdecl
    exact mem_compounds_object.mpr (.inr ⟨_, Fields.mem_of_lookup hl, hdsIn d hd c hc⟩)
  obtain ⟨ps, hps, rfl, hcount⟩ := Piece.from_pieces ds (fun d hd => hd) hin hns
  -- kind, declarations and the three comment fields are five places of the statement
  have hfive (m : Nat) := Value.count_ats_le m e ("kind" :: "declarations" :: Syntax.commentKeys) (by decide)
  simp only [List.map_cons, marksItems_cons, List.count_append, Value.at_eq hkind, Value.at_eq hdecl] at hfive
  cases keepComments with
  | false =>
    cases h
    refine ⟨rfl, kind, declarations, ds, ps, hkind, hdecl, hds, hps, rfl, fun m hm => ?_⟩
    have h1 := hcount m hm
    have h2 := hdsCount m
    have h3 := hfive m
    omega
  | true =>
    obtain ⟨nodes, hnodes, h⟩ := bind_ok (x := commented e _) h
    cases h
    obtain ⟨qs, hqs, rfl, hqcount⟩ := commented_ok hps hnodes
    refine ⟨rfl, kind, declarations, ds, qs, hkind, hdecl, hds, hqs, rfl, fun m hm => ?_⟩
    have h1 := hcount m hm
    have h2 := hdsCount m
    have h3 := hfive m
    have h4 := hqcount m hm
    omega

end Statement
/-! ## Pieces with marks -/

namespace Piece

/-- The piece with fresh marks. -/
def place (next : Nat) (p : Piece) : Piece :=
  { p with mark := next, fields := (stampFields (next + 1) p.fields).1 }

/-- The pieces with fresh marks, one after another, and the next free mark. -/
def placeAll (next : Nat) : List Piece → List Piece × Nat
  | [] => ([], next)
  | p :: rest =>
    (p.place next :: (placeAll (stampFields (next + 1) p.fields).2 rest).1,
      (placeAll (stampFields (next + 1) p.fields).2 rest).2)

theorem stampFields_head {kind : Value} (hkind : ∀ m ∈ kind.marks, 0 < m) (next : Nat) (p : Piece) :
    stampFields next (p.head kind ++ p.fields)
      = (p.head kind ++ (stampFields next p.fields).1, (stampFields next p.fields).2) := by
  unfold head
  cases p.plain with
  | false => rfl
  | true =>
    simp only [if_true, List.cons_append, List.nil_append, stampFields, stamp_of_marked _ kind hkind]
    rfl

/-- A marked kind takes no part in the marking of a piece. -/
theorem stamp_value {kind : Value} (hkind : ∀ m ∈ kind.marks, 0 < m) (next : Nat) {p : Piece} (hp : p.mark = 0) :
    (p.value kind).stamp next = ((p.place next).value kind, (stampFields (next + 1) p.fields).2) := by
  simp only [value, stamp, hp, if_true, stampFields_head hkind]
  rfl

theorem stamp_own (next : Nat) {p : Piece} (hp : p.mark = 0) :
    p.own.stamp next = ((p.place next).own, (stampFields (next + 1) p.fields).2) := by
  simp only [own, stamp, hp, if_true]
  rfl

theorem stampItems_value {kind : Value} (hkind : ∀ m ∈ kind.marks, 0 < m) (next : Nat) {ps : List Piece}
    (hps : ∀ p ∈ ps, p.mark = 0) :
    stampItems next (ps.map (value kind)) = ((placeAll next ps).1.map (value kind), (placeAll next ps).2) := by
  induction ps generalizing next with
  | nil => rfl
  | cons p rest ih =>
    obtain ⟨hp, hrest⟩ := List.forall_mem_cons.mp hps
    simp only [List.map_cons, stampItems, stamp_value hkind next hp, ih _ hrest, placeAll]

theorem stampItems_own (next : Nat) {ps : List Piece} (hps : ∀ p ∈ ps, p.mark = 0) :
    stampItems next (ps.map own) = ((placeAll next ps).1.map own, (placeAll next ps).2) := by
  induction ps generalizing next with
  | nil => rfl
  | cons p rest ih =>
    obtain ⟨hp, hrest⟩ := List.forall_mem_cons.mp hps
    simp only [List.map_cons, stampItems, stamp_own next hp, ih _ hrest, placeAll]

/-- Type and declarations of a piece do not depend on the kind. -/
theorem lookup_value (p : Piece) (kind kind' : Value) (key : String) (hk : key ≠ "kind") :
    (p.head kind ++ p.fields).lookup key = (p.head kind' ++ p.fields).lookup key := by
  have hne : (key == "kind") = false := by simpa using hk
  unfold head
  cases p.plain with
  | false => rfl
  | true => simp only [if_true, List.cons_append, List.nil_append, List.lookup_cons, hne]

theorem isA_value (p : Piece) (kind kind' : Value) (t : NodeType) :
    (p.value kind).isA t = (p.value kind').isA t :=
  Value.isA_congr (v := p.value kind) (w := p.value kind') (lookup_value p kind kind' "type" (by decide)) t

theorem isCandidate_value (p : Piece) (kind kind' : Value) :
    Statement.isCandidate (p.value kind) = Statement.isCandidate (p.value kind') :=
  Statement.isCandidate_congr (lookup_value p kind kind' _ (by decide)) (lookup_value p kind kind' _ (by decide))

/-- A marked piece of the statement `e`; `next` was the first free mark before. Below a piece nothing new is a
declaration. -/
structure Placed (e : Value) (next : Nat) (p : Piece) : Prop where
  fresh : next ≤ p.mark
  parts : ∀ c ∈ compoundsFields p.fields,
    (next ≤ c.mark ∧ c.isA .variableDeclaration = false) ∨ c ∈ e.compounds
  pending : ∀ k ∈ pendingFields false p.fields, k ∈ e.pending
  node : ∀ kind, ∃ t : NodeType, t ≠ .program ∧ (p.value kind).isA t = true
  imports : p.plain = false → ∀ kind, (p.value kind).isA .importDeclaration = true
  quiet : ∀ kind, Statement.isCandidate (p.value kind) = .ok false

theorem Placed.compounds {e : Value} {next : Nat} {p : Piece} (h : p.Placed e next) {c : Value}
    (hc : c ∈ p.own.compounds) : next ≤ c.mark ∨ c ∈ e.compounds := by
  rcases List.mem_cons.mp hc with rfl | hc
  · exact .inl h.fresh
  · exact (h.parts c hc).imp And.left id

/-- A piece that gets its marks. -/
theorem From.placed {e : Value} {ds : List Value} {p : Piece} (h : p.From e ds) (he : ∀ m ∈ e.marks, 0 < m)
    (hds : ∀ k ∈ pendingItems false ds, k ∈ e.pending) {next first : Nat} (hle : next ≤ first) :
    (p.place first).Placed e next := by
  have hnull : ∀ m ∈ Value.null.marks, 0 < m := fun m hm => absurd hm List.not_mem_nil
  have hstamp := stamp_value hnull first h.unmarked
  have hisA (t : NodeType) (kind : Value) (hA : (p.value .null).isA t = true) :
      ((p.place first).value kind).isA t = true := by
    rw [isA_value _ kind .null, ← hA, ← Value.isA_stamp first (p.value .null), hstamp]
  refine ⟨hle, fun c hc => ?_, fun k hk => ?_, fun kind => ?_, fun hplain kind => ?_, fun kind => ?_⟩
  · have hparts (d : Value) (hd : d ∈ compoundsFields p.fields) :
        (d.mark = 0 ∧ d.isTuple = false) ∨ ∀ m ∈ d.marks, 0 < m :=
      (h.compounds d hd).imp (fun hnew => ⟨hnew.1, hnew.2.1⟩) fun hd m hm => he m (marks_of_compound hd hm)
    rcases mem_compounds_stampFields (first + 1) p.fields hparts hc with
      ⟨hfresh, d, hd, hunmarked, herase⟩ | ⟨hold, hpos⟩
    · refine .inl ⟨Nat.le_trans hle (Nat.le_of_succ_le hfresh), ?_⟩
      rcases h.compounds d hd with ⟨_, _, hA⟩ | hd
      · rw [← regular_erase.isA, herase, regular_erase.isA, hA]
      · exact absurd hunmarked (Nat.ne_of_gt (he _ (List.mem_map_of_mem hd)))
    · exact (h.compounds c hold).elim (fun hnew => absurd hnew.1 (Nat.ne_of_gt hpos)) .inr
  · have h0 : 0 ∉ pendingFields false p.fields := fun h0 =>
      absurd (he 0 (mem_marks_of_pending e (hds 0 (h.pending 0 h0)))) (Nat.lt_irrefl 0)
    exact hds k (h.pending k (mem_pendingFields_stamp false (first + 1) p.fields h0 hk))
  · obtain ⟨t, ht, hA⟩ := h.node .null
    exact ⟨t, ht, hisA t kind hA⟩
  · exact hisA .importDeclaration kind (h.imports hplain .null)
  · rw [isCandidate_value _ kind .null, ← h.quiet .null, ← Statement.isCandidate_erase (p.value .null),
      ← Value.erase_stamp first, hstamp, Statement.isCandidate_erase]

end Piece

/-- The statement `e` falls into the pieces `ps` with the common kind `kind`; the marks from `next` up to `last`
were given to what is new in them. -/
structure Statement.Parted (e : Value) (next last : Nat) (kind : Value) (ps : List Piece) : Prop where
  le : next ≤ last
  placed : ∀ p ∈ ps, p.Placed e next
  kindOf : e.get? "kind" = some kind
  kindIn : ∀ c ∈ kind.compounds, c ∈ e.compounds
  kindPending : ∀ k ∈ pendingSlot false kind, k ∈ e.pending
  count : ∀ m, 0 < m → (marksItems (ps.map Piece.own)).count m + kind.marks.count m
    ≤ e.marks.count m + given next last m

namespace Statement

/-- The declarators of a candidate stand in a list or in a tuple. -/
theorem declarations_of_loads {e declarations : Value} (h : loads e = true)
    (hd : e.get? "declarations" = some declarations) :
    (∃ m ds, declarations = .list m ds) ∨ ∃ ds, declarations = .tuple ds := by
  obtain ⟨k, fs, rfl, hl⟩ := Value.exists_of_get? hd
  have hA := isA_of_loads h
  rw [loads, isCandidate_object, if_pos hA, hl, Option.getD_some, loadsAmong] at h
  cases declarations with
  | list m ds => exact .inl ⟨m, ds, rfl⟩
  | tuple ds => exact .inr ⟨ds, rfl⟩
  | text s =>
    have hno := any_isDeclarator_texts Char.toString s.toList
    exact absurd (hno.symm.trans h) Bool.false_ne_true
  | object m gs =>
    have hno := any_isDeclarator_texts Prod.fst gs
    exact absurd (hno.symm.trans h) Bool.false_ne_true
  | _ => exact absurd h Bool.false_ne_true

/-- Where there are no tuples they stand in a list. -/
theorem declarations_list {e declarations : Value} (h : loads e = true)
    (he : ∀ c ∈ e.compounds, c.isTuple = false) (hd : e.get? "declarations" = some declarations) :
    ∃ m ds, declarations = .list m ds := by
  rcases declarations_of_loads h hd with hlist | ⟨ds, rfl⟩
  · exact hlist
  · obtain ⟨k, fs, rfl, hl⟩ := Value.exists_of_get? hd
    have htuple := he (.tuple ds) (mem_compounds_object.mpr (.inr ⟨_, Fields.mem_of_lookup hl, List.mem_cons_self⟩))
    cases htuple

theorem Piece.forall_placeAll {P : Piece → Prop} {next : Nat} {ps : List Piece}
    (h : ∀ p ∈ ps, ∀ first, next ≤ first → P (p.place first)) : ∀ p ∈ (Piece.placeAll next ps).1, P p := by
  induction ps generalizing next with
  | nil => exact fun p hp => absurd hp List.not_mem_nil
  | cons p rest ih =>
    obtain ⟨hp, hrest⟩ := List.forall_mem_cons.mp h
    have hle : next ≤ (stampFields (next + 1) p.fields).2 :=
      Nat.le_of_succ_le (count_marks_stampFields Nat.one_pos (next + 1) p.fields).1
    refine List.forall_mem_cons.mpr ⟨hp next (Nat.le_refl next), ih fun q hq first hfirst => ?_⟩
    exact hrest q hq first (Nat.le_trans hle hfirst)

/-- **A marked candidate falls into pieces**, with fresh marks on what is new in them. -/
theorem split_parted {keepComments : Bool} {e : Value} {r : Replacement} (next : Nat) (hload : loads e = true)
    (he : ∀ m ∈ e.marks, 0 < m) (h : split keepComments e = .ok r) :
    r.target = e ∧ ∃ kind ps last, stampItems next r.nodes = (ps.map (Piece.value kind), last) ∧
      Parted e next last kind ps := by
  obtain ⟨htarget, kind, declarations, ds, ps, hkind, hdecl, hds, hps, hnodes, hcount⟩ := split_ok h
  obtain ⟨k, ds', rfl⟩ := declarations_list hload (fun c => isTuple_of_marked he) hdecl
  obtain rfl : ds' = ds := Except.ok.inj hds
  have hkindWithin : kind.Within e := within_get? (isA_of_loads hload) (by decide) (by decide) hkind
  have hdsWithin : (Value.list k ds').Within e := within_get? (isA_of_loads hload) (by decide) (by decide) hdecl
  have hslot : pendingSlot false e = e.pending := pendingSlot_node false (isNode_of_loads hload)
  have hpend (m : Nat) (hm : m ∈ pendingItems false ds') : m ∈ e.pending := by
    rw [← hslot]
    exact hdsWithin.pending m (by rw [pendingSlot]; exact List.mem_append_right _ hm)
  have hkindMarked : ∀ m ∈ kind.marks, 0 < m := by
    intro m hm
    obtain ⟨c, hc, rfl⟩ := List.mem_map.mp hm
    exact he _ (List.mem_map_of_mem (hkindWithin.compounds c hc))
  have hunmarked : ∀ p ∈ ps, p.mark = 0 := fun p hp => (hps p hp).unmarked
  refine ⟨htarget, kind, (Piece.placeAll next ps).1, (Piece.placeAll next ps).2, ?_, ?_⟩
  · rw [hnodes, Piece.stampItems_value hkindMarked next hunmarked]
  · refine ⟨?_, Piece.forall_placeAll fun p hp first hle => (hps p hp).placed he hpend hle, hkind,
      hkindWithin.compounds, fun m hm => hslot ▸ hkindWithin.pending m hm, fun m hm => ?_⟩
    · have hle := (count_marks_stampItems Nat.one_pos next (ps.map Piece.own)).1
      rwa [Piece.stampItems_own next hunmarked] at hle
    · have hstamp := (count_marks_stampItems hm next (ps.map Piece.own)).2
      rw [Piece.stampItems_own next hunmarked] at hstamp
      have hle := hcount m hm
      simp only at hstamp
      omega

end Statement
end EsmLift
