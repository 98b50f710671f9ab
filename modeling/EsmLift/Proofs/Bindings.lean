import EsmLift.Proofs.Refinement
import EsmLift.Standard

/-!
# `Proofs.Bindings` — no binding is lost

A statement binds names, in **groups**: each declarator of a variable declaration is a group, and so is an import.
A declarator that loads a module binds the same names as the import it stands for, only the order inside the group
may differ, because default specifiers come first. So the pass keeps the sequence of groups of a program.

## Contents

* `Binding`, `Load.bindings`, `Statement.groups`: what a statement binds;
* `Load.groups_toImport`: an import binds what its load denotes;
* `Statement.groups_split`: the pieces of a statement bind what the statement binds;
* `Lift.groups_body`: so does the body of a program, and with it the pass over the program.
-/

namespace EsmLift

open Value

/-! ## What statements bind -/

/-- A name that is bound, or a statement that binds none. -/
inductive Binding where
  /-- A local name for an export of a module. -/
  | imported (localName exported source : Value)
  /-- A declarator of a variable declaration of some kind. -/
  | plain (kind : Option Value) (declarator : Value)
  | other (statement : Value)

/-- The bindings that a load denotes. The module as a whole is its default export. -/
def Load.bindings : Load → List Binding
  | whole id source => [.imported id (.text "default") source]
  | exports properties source =>
    properties.map fun p => .imported (p.at "value") ((p.at "key").at "name") source
  | one id property source => [.imported id (property.at "name") source]

/-- The binding of a specifier of an import. -/
def Syntax.specifierBindings (source s : Value) : List Binding :=
  if s.isA .importDefaultSpecifier then [.imported (s.at "local") (.text "default") source]
  else if s.isA .importSpecifier then [.imported (s.at "local") ((s.at "imported").at "name") source]
  else []

namespace Statement

/-- The declarators of a variable declaration. -/
def declarators (s : Value) : List Value :=
  match ((s.get? "declarations").getD (.newList [])).items with
  | .ok ds => ds
  | .error _ => []

/-- The bindings of one declarator. -/
def declaratorGroup (kind : Option Value) (d : Value) : List Binding :=
  match Require.load? d with
  | some l => l.bindings
  | none => [.plain kind d]

/-- The groups of bindings of a statement. -/
def groups (s : Value) : List (List Binding) :=
  if s.isA .variableDeclaration then (declarators s).map (declaratorGroup (s.get? "kind"))
  else if s.isA .importDeclaration then
    [(Require.listed (s.at "specifiers")).flatMap (Syntax.specifierBindings (s.at "source"))]
  else [[.other s]]

/-- The same groups in the same order, each with the same bindings in any order. -/
def SameGroups (before after : List (List Binding)) : Prop := List.Forall₂ List.Perm before after

end Statement

/-! ## Imports -/

/-- A specifier binds the local name to the export that it names. -/
theorem Require.bindings_specifier {localName imported s : Value} (source : Value)
    (h : specifier localName imported = .ok s) :
    Syntax.specifierBindings source s = [.imported localName (imported.at "name") source] := by
  obtain ⟨name, hname, rfl⟩ := specifier_ok h
  rw [at_eq hname]
  by_cases hd : isDefault name = true
  · -- an export called `default` gives a default specifier
    have htext : name = .text "default" := by
      cases name with
      | text s => exact congrArg Value.text (by simpa [isDefault, Value.isText] using hd)
      | _ => cases hd
    rw [if_pos hd, htext]
    rfl
  · rw [if_neg hd]
    unfold Syntax.specifierBindings
    have hat : (Syntax.importSpecifier localName imported).at "imported" = imported := rfl
    rw [hat, at_eq hname]
    rfl

theorem Require.bindings_specifiers {ps ss : List Value} (source : Value)
    (h : List.Forall₂ (fun p s => specifier (p.at "value") (p.at "key") = .ok s) ps ss) :
    ss.flatMap (Syntax.specifierBindings source) = (Load.exports ps source).bindings := by
  induction h with
  | nil => rfl
  | cons hs _ ih =>
    rw [List.flatMap_cons, ih, bindings_specifier source hs]
    rfl

namespace Load

/-- **An import binds what its load denotes**, up to the order of its specifiers. -/
theorem groups_toImport {l : Load} {n : Value} (h : l.toImport = .ok n) :
    ∃ g, Statement.groups n = [g] ∧ l.bindings.Perm g := by
  have himport (ss : List Value) (source : Value) : Statement.groups (Syntax.importDeclaration ss source)
      = [ss.flatMap (Syntax.specifierBindings source)] := rfl
  cases l with
  | whole id source =>
    cases h
    exact ⟨_, himport _ _, .refl _⟩
  | exports ps source =>
    obtain ⟨ss, hss, rfl⟩ := map_ok h
    refine ⟨_, himport _ _, ?_⟩
    rw [← Require.bindings_specifiers source (Require.propertySpecifiers_ok hss)]
    exact ((Require.defaultsFirst_perm ss).flatMap_right _).symm
  | one id property source =>
    obtain ⟨s, hs, rfl⟩ := map_ok h
    refine ⟨_, himport _ _, ?_⟩
    rw [List.flatMap_singleton, Require.bindings_specifier source hs]
    exact .refl _

end Load

namespace Statement

theorem SameGroups.refl (gs : List (List Binding)) : SameGroups gs gs :=
  List.forall₂_same.mpr fun g _ => .refl g

theorem SameGroups.append {gs gs' hs hs' : List (List Binding)} (h : SameGroups gs gs') (h' : SameGroups hs hs') :
    SameGroups (gs ++ hs) (gs' ++ hs') :=
  List.rel_append h h'

/-- The statement of a declarator is one group, and binds what the declarator binds. -/
theorem groups_statement {kind d n : Value} (h : Require.statement kind d = .ok n) :
    ∃ g, groups n = [g] ∧ (declaratorGroup (some kind) d).Perm g := by
  rw [Require.statement_eq] at h
  unfold declaratorGroup
  cases hl : Require.load? d with
  | some l =>
    rw [hl] at h
    exact Load.groups_toImport h
  | none =>
    rw [hl] at h
    cases h
    refine ⟨[.plain (some kind) d], ?_, .refl _⟩
    show [declaratorGroup (some kind) d] = _
    rw [declaratorGroup, hl]

theorem groups_pieces {kind : Value} {ds ns : List Value} (h : pieces kind ds = .ok ns) :
    SameGroups (ds.map (declaratorGroup (some kind))) (ns.flatMap groups) := by
  induction ds generalizing ns with
  | nil =>
    cases h
    exact .nil
  | cons d rest ih =>
    obtain ⟨n, hn, h⟩ := bind_ok h
    obtain ⟨ns', hns, h⟩ := bind_ok h
    cases h
    obtain ⟨g, hg, hperm⟩ := groups_statement hn
    rw [List.map_cons, List.flatMap_cons, hg]
    exact .cons hperm (ih hns)

/-! ## Comments bind nothing -/

/-- A statement that is split, or a piece of one. -/
def Declares (s : Value) : Prop := s.isA .variableDeclaration = true ∨ s.isA .importDeclaration = true

/-- What a declaration or an import binds does not depend on its metadata. -/
theorem groups_congr {s s' : Value} (hs : Declares s)
    (h : ∀ key, Syntax.metadataKeys.contains key = false → s'.get? key = s.get? key) : groups s' = groups s := by
  have htype (t : NodeType) : s'.isA t = s.isA t := isA_congr (h "type" (by decide)) t
  have hat (key : String) (hk : Syntax.metadataKeys.contains key = false) : s'.at key = s.at key := by
    unfold Value.at
    rw [h key hk]
  unfold groups declarators
  rw [htype, htype, h "kind" (by decide), h "declarations" (by decide), hat "specifiers" (by decide),
    hat "source" (by decide)]
  split
  · rfl
  · rename_i hvar
    rw [if_pos (hs.resolve_left hvar), if_pos (hs.resolve_left hvar)]

/-- The statement of a declarator declares something. -/
theorem declares_pieces {kind : Value} {ds ns : List Value} (h : pieces kind ds = .ok ns) : ∀ n ∈ ns, Declares n := by
  induction ds generalizing ns with
  | nil =>
    cases h
    intro n hn
    exact absurd hn List.not_mem_nil
  | cons d rest ih =>
    obtain ⟨n, hn, h⟩ := bind_ok h
    obtain ⟨ns', hns, h⟩ := bind_ok h
    cases h
    refine List.forall_mem_cons.mpr ⟨?_, ih hns⟩
    rw [Require.statement_eq] at hn
    cases hl : Require.load? d with
    | none =>
      rw [hl] at hn
      cases hn
      exact .inl rfl
    | some l =>
      rw [hl] at hn
      obtain ⟨ss, source, rfl, _⟩ := Load.toImport_ok hn
      exact .inr rfl

theorem groups_commented {e : Value} {ns ns' : List Value} (hns : ∀ n ∈ ns, Declares n)
    (h : commented e ns = .ok ns') : ns'.flatMap groups = ns.flatMap groups := by
  cases ns with
  | nil =>
    cases h
    rfl
  | cons first rest =>
    have hfirst := hns first List.mem_cons_self
    have hobj : first.isObject = true := by
      rcases hfirst with hA | hA <;> exact isObject_of_isNode (isNode_of_isA hA)
    rw [commented] at h
    rcases hc : Syntax.copyComments e first with ⟨t, _ | fault⟩
    · rw [hc] at h
      cases h
      have hget := get?_copyKeys hobj Syntax.commentKeys (by decide) hc
      rw [List.flatMap_cons, List.flatMap_cons, groups_congr hfirst hget]
    · rw [hc] at h
      cases h

/-! ## Splitting -/

/-- **The pieces of a statement bind what the statement binds**, in the same order. -/
theorem groups_split {keepComments : Bool} {e : Value} {r : Replacement} (he : e.isA .variableDeclaration = true)
    (h : split keepComments e = .ok r) : SameGroups (groups e) (r.nodes.flatMap groups) := by
  obtain ⟨kind, hkind, h⟩ := bind_ok h
  obtain ⟨declarations, hdecl, h⟩ := bind_ok h
  obtain ⟨ds, hds, h⟩ := bind_ok h
  obtain ⟨ns, hns, h⟩ := bind_ok h
  have hgroups : groups e = ds.map (declaratorGroup (some kind)) := by
    unfold groups declarators
    rw [if_pos he, Require.get?_of_require hkind, Require.get?_of_require hdecl, Option.getD_some, hds]
  have hpieces := groups_pieces hns
  rw [hgroups]
  cases keepComments with
  | false =>
    cases h
    exact hpieces
  | true =>
    obtain ⟨nodes, hnodes, h⟩ := bind_ok (x := commented e _) h
    cases h
    rw [groups_commented (declares_pieces hns) hnodes]
    exact hpieces

/-- What is pending in a piece was pending in the statement. -/
theorem pending_split {keepComments : Bool} {e n : Value} {r : Replacement} (hl : loads e = true)
    (htuple : ∀ c ∈ e.compounds, c.isTuple = false) (hs : split keepComments e = .ok r) (hn : n ∈ r.nodes) {m : Nat}
    (hm : m ∈ n.pending) : m ∈ e.pending := by
  obtain ⟨_, kind, declarations, ds, ps, hkind, hdecl, hds, hps, hnodes, _⟩ := split_ok hs
  obtain ⟨k, ds', rfl⟩ := declarations_list hl htuple hdecl
  obtain rfl : ds' = ds := Except.ok.inj hds
  rw [hnodes] at hn
  obtain ⟨p, hp, rfl⟩ := List.mem_map.mp hn
  obtain ⟨t, ht, hA⟩ := (hps p hp).node kind
  rw [← pendingSlot_node false (isNode_of_loads hl)]
  rcases List.mem_append.mp (Piece.pending_value_subset (isA_unique hA ht) hm) with hm | hm
  · exact (within_get? (isA_of_loads hl) (by decide) (by decide) hkind).pending m hm
  · apply (within_get? (isA_of_loads hl) (by decide) (by decide) hdecl).pending m
    rw [pendingSlot]
    exact List.mem_append_right _ ((hps p hp).pending m hm)

end Statement

/-! ## The pass -/

namespace Lift

open Statement

/-- What stands in the place of an item in which nothing is pending binds what the item binds. -/
theorem groups_liftedItem (keepComments : Bool) {x : Value} (htuple : ∀ c ∈ x.compounds, c.isTuple = false)
    (hx : x.isNode = true → x.pending = []) :
    SameGroups (groups x) ((liftedItem keepComments true x).flatMap groups) := by
  have hone : SameGroups (groups x) ([x].flatMap groups) := by
    rw [List.flatMap_singleton]
    exact .refl _
  cases hn : x.isNode with
  | false =>
    rw [liftedItem_other keepComments true hn]
    exact hone
  | true =>
    have hself : lifted keepComments x = x := (lifted_eq_self keepComments x).1 (hx hn)
    rw [liftedItem_replaced keepComments hn]
    cases hl : loads x with
    | false =>
      rw [replaced_of_not_loads hl, List.map_singleton, hself]
      exact hone
    | true =>
      cases hs : split keepComments x with
      | error fault =>
        rw [replaced_of_error hs, List.map_singleton, hself]
        exact hone
      | ok r =>
        -- nothing is pending in the pieces either, so they stay as they are
        have hpieces : r.nodes.map (lifted keepComments) = r.nodes := by
          apply items_map_self
          intro n hmem
          apply (lifted_eq_self keepComments n).1
          apply List.eq_nil_iff_forall_not_mem.mpr
          intro m hm
          have hpend := pending_split hl htuple hs hmem hm
          rw [hx hn] at hpend
          exact absurd hpend List.not_mem_nil
        rw [replaced_of_split hl hs, hpieces]
        exact groups_split (isA_of_loads hl) hs

theorem groups_body (keepComments : Bool) (xs : List Value)
    (htuple : ∀ x ∈ xs, ∀ c ∈ x.compounds, c.isTuple = false) (hxs : ∀ x ∈ xs, x.isNode = true → x.pending = []) :
    SameGroups (xs.flatMap groups) ((xs.flatMap (liftedItem keepComments true)).flatMap groups) := by
  induction xs with
  | nil => exact .nil
  | cons x rest ih =>
    obtain ⟨htuple, htuples⟩ := List.forall_mem_cons.mp htuple
    obtain ⟨hx, hrest⟩ := List.forall_mem_cons.mp hxs
    rw [List.flatMap_cons, List.flatMap_cons, List.flatMap_append]
    exact (groups_liftedItem keepComments htuple hx).append (ih htuples hrest)

/-- A list in a field of a program after the pass. -/
theorem get?_lifted_program {keepComments : Bool} {tree : Value} {m : Nat} {xs : List Value} {key : String}
    (hprogram : tree.isA .program = true) (hk : Syntax.metadataKeys.contains key = false)
    (h : tree.get? key = some (.list m xs)) :
    (lifted keepComments tree).get? key = some (.list m (xs.flatMap (liftedItem keepComments true))) := by
  obtain ⟨k, fs, rfl, hl⟩ := exists_of_get? h
  rw [lifted_object, hprogram]
  show List.lookup _ _ = _
  rw [lookup_lifted, hl, Option.map_some, hk, if_neg Bool.false_ne_true, liftedSlot_list]

/-- In a program there is nothing pending in a statement, if there are no other programs. -/
theorem pending_statement {tree x : Value} {m : Nat} {xs : List Value} {key : String}
    (hk : Syntax.metadataKeys.contains key = false) (h : tree.get? key = some (.list m xs))
    (honly : ∀ p ∈ tree.reached, p.2.isA .program = false) (hx : x ∈ xs) (hn : x.isNode = true) : x.pending = [] := by
  obtain ⟨k, fs, rfl, hl⟩ := exists_of_get? h
  have hreached (p : Value × Value) (hp : p ∈ (.object k fs, x) :: x.reached) : p ∈ (Value.object k fs).reached :=
    mem_reachedFields (Fields.mem_of_lookup hl) hk (mem_reachedItems hx hn hp)
  apply pending_of_no_program
  · exact honly _ (hreached _ List.mem_cons_self)
  · intro p hp
    exact honly p (hreached p (List.mem_cons_of_mem _ hp))

/-- In a program that a pass has completed, no statement is a candidate. -/
theorem Completed.loads_statement {category : Value} {keepComments : Bool} {sink : Diagnostics} {tree : Value}
    {r : Result} (h : Completed category keepComments sink tree r) (hprogram : tree.isA .program = true)
    {key : String} (hk : Syntax.metadataKeys.contains key = false) {m : Nat} {ys : List Value}
    (hbody : r.tree.erase.get? key = some (.list m ys)) : ∀ y ∈ ys, loads y = false := by
  intro y hy
  have hroot : r.tree.isA .program = true := by
    rw [← regular_erase.isA, h.erased, isA_lifted, hprogram]
  rw [get?_erase] at hbody
  obtain ⟨w, hw, hlist⟩ := Option.map_eq_some_iff.mp hbody
  cases w with
  | list k zs =>
    rw [erase_list] at hlist
    cases hlist
    obtain ⟨z, hz, rfl⟩ := List.mem_map.mp hy
    rw [loads_erase]
    cases hload : loads z with
    | false => rfl
    | true =>
      -- such a statement would have been visited, with the program as its owner
      have hmem : (r.tree, z) ∈ r.tree.reached := by
        obtain ⟨j, fs, htree, hl⟩ := exists_of_get? hw
        rw [htree]
        exact mem_reachedFields (Fields.mem_of_lookup hl) hk
          (mem_reachedItems hz (isNode_of_loads hload) List.mem_cons_self)
      obtain ⟨b, hb, hno⟩ := h.clean (some r.tree, z) (List.mem_cons_of_mem _ (List.mem_map.mpr ⟨_, hmem, rfl⟩))
      rw [loads_iff.mp hload] at hb
      have hfalse := hno (Except.ok.inj hb).symm
      rw [isProgram, hroot] at hfalse
      cases hfalse
  | _ => cases hlist

/-- **No binding is lost.** Let the root of a tree be its only program, with a list as its body. If the pass returns,
the statements of the body afterwards have the same groups of bindings in the same order, each group with the same
bindings; and none of them loads a module any more. -/
theorem run_preserves_bindings (category : Value) (keepComments : Bool) (sink : Diagnostics) (tree : Value)
    (xs : List Value) (hjson : tree.isJson = true) (hprogram : tree.isA .program = true)
    (honly : ∀ p ∈ tree.reached, p.2.isA .program = false) (hbody : tree.get? "body" = some (.list 0 xs))
    (hfault : (run category keepComments sink tree).fault = none) :
    ∃ ys, (run category keepComments sink tree).tree.erase.get? "body" = some (.list 0 ys) ∧
      SameGroups (xs.flatMap groups) (ys.flatMap groups) ∧ ∀ y ∈ ys, loads y = false := by
  have hdone := run_completed hjson hfault
  have hafter : (run category keepComments sink tree).tree.erase.get? "body"
      = some (.list 0 (xs.flatMap (liftedItem keepComments true))) := by
    rw [hdone.erased]
    exact get?_lifted_program hprogram (by decide) hbody
  refine ⟨_, hafter, ?_, hdone.loads_statement hprogram (by decide) hafter⟩
  apply groups_body
  · intro x hx c hc
    obtain ⟨m, fs, rfl, hl⟩ := exists_of_get? hbody
    have hitem : c ∈ (Value.list 0 xs).compounds := mem_compounds_list.mpr (.inr ⟨x, hx, hc⟩)
    exact (isJson_iff.mp hjson c (mem_compounds_object.mpr (.inr ⟨_, Fields.mem_of_lookup hl, hitem⟩))).2
  · intro x hx hn
    exact pending_statement (by decide) hbody honly hx hn

theorem run_preserves_bindings_sample :
    Sample.plain.isJson = true ∧ Sample.plain.isA .program = true ∧
      Sample.plain.get? "body" = some (.list 0 [Sample.declaration]) ∧
      (run (.text "commonjs") true (.empty .standard false) Sample.plain).fault = none ∧
      ∃ ys, (run (.text "commonjs") true (.empty .standard false) Sample.plain).tree.erase.get? "body"
          = some (.list 0 ys) ∧
        SameGroups (groups Sample.declaration ++ []) (ys.flatMap groups) ∧ ∀ y ∈ ys, loads y = false :=
  ⟨by decide +kernel, by decide +kernel, rfl, by decide +kernel,
    run_preserves_bindings _ _ _ Sample.plain [Sample.declaration] (by decide +kernel) (by decide +kernel)
      (by decide +kernel) rfl (by decide +kernel)⟩

end Lift
end EsmLift
