import EsmLift.Proofs.Bindings
import EsmLift.Proofs.Totality
import EsmLift.Standard

/-!
# `Proofs.Comments` — the pass keeps the comments of statements

Comments stand in three fields of a statement. When a statement is split, its comments are copied to the first piece
or left out, as asked; the other pieces are new and have none. A statement that is not split keeps its own, because
lifting does not touch metadata. So the comments of a body, read statement after statement, are those that were
there before, or these without the comments of the statements that were split.

## Contents

* `Statement.comments`, `Statement.commentable`;
* `comments_copyKeys`, `comments_split`: the first piece has the comments, the others have none;
* `comments_liftedItem`: one statement of a program;
* `run_conserves_comments`: the body of a program that a pass has completed.
-/

namespace EsmLift

open Value

namespace Statement

/-- The comments of a statement under a key. -/
def comments (key : String) (s : Value) : List Value := Require.listed (s.at key)

/-- Whether a value is an object on which the fields for comments are absent, null or lists. -/
def commentable (s : Value) : Bool := s.isObject && Syntax.commentKeys.all fun key => optional isList (s.get? key)

theorem comments_congr {s t : Value} {key : String} (h : s.get? key = t.get? key) : comments key s = comments key t := by
  rw [comments, comments, Value.at, Value.at, h]

/-- Without the field there are no comments. -/
theorem comments_of_none {s : Value} {key : String} (h : s.get? key = none) : comments key s = [] := by
  rw [comments, Value.at, h]
  rfl

/-- The fields for comments of such an object: empty, or a list with comments. -/
theorem comments_cases {s : Value} (h : commentable s = true) {key : String} (hkey : key ∈ Syntax.commentKeys) :
    comments key s = [] ∧ s.field key = .ok (s.at key) ∧ (s.at key).truthy = false ∨
      ∃ m c rest, comments key s = c :: rest ∧ s.field key = .ok (.list m (c :: rest)) := by
  rw [commentable, Bool.and_eq_true, List.all_eq_true] at h
  obtain ⟨hobj, hall⟩ := h
  have hlist := hall key hkey
  cases s with
  | object m fs =>
    have hfield : (Value.object m fs).field key = .ok ((Value.object m fs).at key) := rfl
    rw [comments]
    cases hget : (Value.object m fs).get? key with
    | none =>
      have hat : (Value.object m fs).at key = .null := by rw [Value.at, hget]; rfl
      exact .inl ⟨by rw [hat]; rfl, hfield, by rw [hat]; rfl⟩
    | some w =>
      rw [hget] at hlist
      rw [at_eq hget] at hfield ⊢
      cases w with
      | null => exact .inl ⟨rfl, hfield, rfl⟩
      | list k cs =>
        cases cs with
        | nil => exact .inl ⟨rfl, hfield, rfl⟩
        | cons c rest => exact .inr ⟨k, c, rest, rfl, hfield⟩
      | _ => cases hlist
  | _ => cases hobj

/-! ## Copying -/

/-- One key is copied to an object that has no comments there. -/
theorem comments_copyKey {e t : Value} {m : Nat} {fs : Fields} {key : String} (he : commentable e = true)
    (hkey : key ∈ Syntax.commentKeys) (hnone : fs.lookup key = none)
    (h : Syntax.copyKey e (.object m fs) key = .ok t) :
    ∃ gs, t = .object m gs ∧ comments key t = comments key e ∧ ∀ k, k ≠ key → gs.lookup k = fs.lookup k := by
  unfold Syntax.copyKey at h
  rcases comments_cases he hkey with ⟨hempty, hfield, htruthy⟩ | ⟨n, c, rest, hcomments, hfield⟩
  · obtain ⟨w, hw, h⟩ := bind_ok h
    obtain rfl : e.at key = w := Except.ok.inj (hfield.symm.trans hw)
    rw [htruthy, if_neg Bool.false_ne_true] at h
    cases h
    have hown : (Value.object m fs).get? key = none := hnone
    exact ⟨fs, rfl, by rw [hempty, comments_of_none hown], fun _ _ => rfl⟩
  · obtain ⟨w, hw, h⟩ := bind_ok h
    obtain rfl : .list n (c :: rest) = w := Except.ok.inj (hfield.symm.trans hw)
    have htruthy : (Value.list n (c :: rest)).truthy = true := rfl
    rw [if_pos htruthy] at h
    obtain ⟨copied, hcopied, h⟩ := bind_ok h
    obtain ⟨own, hown, h⟩ := bind_ok h
    cases hcopied
    rw [hnone] at hown
    cases hown
    cases h
    refine ⟨_, rfl, ?_, fun k hk => Fields.lookup_put_ne fs _ hk⟩
    rw [hcomments, comments, Value.at, Value.get?, Fields.lookup_put_self]
    exact List.append_nil _

/-- Comments are copied key by key to an object that has none. -/
theorem comments_copyKeys {e t : Value} {m : Nat} {fs : Fields} (he : commentable e = true) (keys : List String)
    (hkeys : keys.Nodup) (hsub : ∀ key ∈ keys, key ∈ Syntax.commentKeys) (hnone : ∀ key ∈ keys, fs.lookup key = none)
    (h : Syntax.copyKeys e (.object m fs) keys = (t, none)) :
    (∀ key ∈ keys, comments key t = comments key e) ∧ ∀ key, key ∉ keys → t.get? key = fs.lookup key := by
  induction keys generalizing fs with
  | nil =>
    cases h
    exact ⟨nofun, fun _ _ => rfl⟩
  | cons key rest ih =>
    obtain ⟨hnot, hrest⟩ := List.nodup_cons.mp hkeys
    obtain ⟨hkey, hsubRest⟩ := List.forall_mem_cons.mp hsub
    obtain ⟨hnoneKey, hnoneRest⟩ := List.forall_mem_cons.mp hnone
    rw [Syntax.copyKeys] at h
    cases hc : Syntax.copyKey e (.object m fs) key with
    | error fault => rw [hc] at h; cases h
    | ok t' =>
      rw [hc] at h
      obtain ⟨gs, rfl, hself, hother⟩ := comments_copyKey he hkey hnoneKey hc
      have hnoneAfter (k : String) (hk : k ∈ rest) : gs.lookup k = none :=
        (hother k fun heq => hnot (heq ▸ hk)).trans (hnoneRest k hk)
      obtain ⟨hcopied, hkept⟩ := ih hrest hsubRest hnoneAfter h
      refine ⟨List.forall_mem_cons.mpr ⟨?_, hcopied⟩, fun k hk => ?_⟩
      · rw [← hself]
        exact comments_congr (hkept key hnot)
      · rw [List.mem_cons, not_or] at hk
        rw [hkept k hk.2, hother k hk.1]

/-! ## Splitting -/

/-- New statements have no comments. -/
theorem comments_pieces {kind : Value} {ds ns : List Value} (h : pieces kind ds = .ok ns) :
    ∀ n ∈ ns, ∃ fs, n = .object 0 fs ∧ ∀ key ∈ Syntax.commentKeys, fs.lookup key = none := by
  intro n hn
  obtain ⟨d, _, hd⟩ := exists_left_of_forall₂ (pieces_ok h) hn
  obtain ⟨fs, rfl, _, hnone⟩ := exists_fields_of_statement hd
  exact ⟨fs, rfl, hnone⟩

/-- Only the first of some statements may have comments, and it has the given ones. -/
def Headed (given : String → List Value) (ns : List Value) : Prop :=
  ∃ first rest, ns = first :: rest ∧ (∀ key ∈ Syntax.commentKeys, comments key first = given key) ∧
    ∀ n ∈ rest, ∀ key ∈ Syntax.commentKeys, comments key n = []

/-- A candidate has a declarator. -/
theorem declarators_ne_nil {e declarations : Value} {ds : List Value} (hload : loads e = true)
    (hdecl : e.get? "declarations" = some declarations) (hds : declarations.items = .ok ds) : ds ≠ [] := by
  rintro rfl
  obtain ⟨m, fs, rfl, hl⟩ := exists_of_get? hdecl
  have hA := isA_of_loads hload
  rw [loads_iff, isCandidate_object, if_pos hA, hl, Option.getD_some, loadsAmong, hds] at hload
  cases hload

/-- **The comments of a statement go to its first piece**, or they are left out. -/
theorem comments_split {keepComments : Bool} {e : Value} {r : Replacement} (hload : loads e = true)
    (he : commentable e = true) (h : split keepComments e = .ok r) :
    Headed (fun key => if keepComments then comments key e else []) r.nodes := by
  obtain ⟨kind, _, h⟩ := bind_ok h
  obtain ⟨declarations, hdecl, h⟩ := bind_ok h
  obtain ⟨ds, hds, h⟩ := bind_ok h
  obtain ⟨ns, hns, h⟩ := bind_ok h
  have hne := declarators_ne_nil hload (Require.get?_of_require hdecl) hds
  have hnone := comments_pieces hns
  have hlength := (pieces_ok hns).length_eq
  cases ns with
  | nil => exact absurd (List.length_eq_zero_iff.mp hlength) hne
  | cons first rest =>
    obtain ⟨⟨fs, rfl, hfs⟩, hrest⟩ := List.forall_mem_cons.mp hnone
    have hempty (n : Value) (hn : n ∈ rest) (key : String) (hkey : key ∈ Syntax.commentKeys) : comments key n = [] := by
      obtain ⟨gs, rfl, hgs⟩ := hrest n hn
      exact comments_of_none (hgs key hkey)
    cases keepComments with
    | false =>
      cases h
      exact ⟨_, rest, rfl, fun key hkey => comments_of_none (hfs key hkey), hempty⟩
    | true =>
      obtain ⟨nodes, hnodes, h⟩ := bind_ok (x := commented e _) h
      cases h
      rw [commented] at hnodes
      rcases hcopy : Syntax.copyComments e (.object 0 fs) with ⟨t, _ | fault⟩
      · rw [hcopy] at hnodes
        cases hnodes
        obtain ⟨hcopied, _⟩ := comments_copyKeys he Syntax.commentKeys (by decide) (fun _ h => h) hfs hcopy
        exact ⟨t, rest, rfl, hcopied, hempty⟩
      · rw [hcopy] at hnodes
        cases hnodes

theorem Headed.map_lifted {given : String → List Value} {ns : List Value} (h : Headed given ns) (keepComments : Bool) :
    Headed given (ns.map (Lift.lifted keepComments)) := by
  have hkept (n : Value) (key : String) (hkey : key ∈ Syntax.commentKeys) :
      comments key (Lift.lifted keepComments n) = comments key n := by
    have hmeta : Syntax.metadataKeys.contains key = true := by
      revert key
      decide
    exact comments_congr (Lift.get?_lifted keepComments n hmeta)
  obtain ⟨first, rest, rfl, hfirst, hrest⟩ := h
  refine ⟨_, _, List.map_cons, fun key hkey => (hkept first key hkey).trans (hfirst key hkey), fun n hn key hkey => ?_⟩
  obtain ⟨n', hn', rfl⟩ := List.mem_map.mp hn
  exact (hkept n' key hkey).trans (hrest n' hn' key hkey)

/-- The comments of such statements, one after another. -/
theorem Headed.flatMap {given : String → List Value} {ns : List Value} (h : Headed given ns) {key : String}
    (hkey : key ∈ Syntax.commentKeys) : ns.flatMap (comments key) = given key := by
  obtain ⟨first, rest, rfl, hfirst, hrest⟩ := h
  have hnil : rest.flatMap (comments key) = [] := List.flatMap_eq_nil_iff.mpr fun n hn => hrest n hn key hkey
  rw [List.flatMap_cons, hnil, List.append_nil, hfirst key hkey]

end Statement

namespace Lift

open Statement

variable {keepComments : Bool}

/-- What a pass leaves of the comments of a statement under a key. -/
def keptComments (keepComments : Bool) (x : Value) (key : String) : List Value :=
  if keepComments || !loads x then comments key x else []

theorem flatMap_keptComments (xs : List Value) (key : String) : xs.flatMap (fun x => keptComments keepComments x key)
    = (if keepComments then xs else xs.filter fun x => !loads x).flatMap (comments key) := by
  cases keepComments with
  | true => rfl
  | false =>
    induction xs with
    | nil => rfl
    | cons x rest ih =>
      rw [if_neg Bool.false_ne_true] at ih ⊢
      rw [List.flatMap_cons, ih, keptComments, Bool.false_or, List.filter_cons]
      split
      · rw [List.flatMap_cons]
      · rfl

/-- The statements in the place of one statement of a program, if none of them is a candidate any more. -/
theorem comments_liftedItem {x : Value} (hx : commentable x = true)
    (hdone : ∀ y ∈ liftedItem keepComments true x, loads y = false) :
    (liftedItem keepComments true x).length = (if loads x then (x.at "declarations").width else 1) ∧
      Headed (keptComments keepComments x) (liftedItem keepComments true x) := by
  have hsingle : Headed (fun key => comments key x) [x] := ⟨x, [], rfl, fun _ _ => rfl, nofun⟩
  cases hload : loads x with
  | false =>
    have hkept : keptComments keepComments x = fun key => comments key x := by
      unfold keptComments
      rw [hload, Bool.not_false, Bool.or_true]
      rfl
    rw [hkept, if_neg Bool.false_ne_true]
    cases hn : x.isNode with
    | false =>
      rw [liftedItem_other keepComments true hn]
      exact ⟨rfl, hsingle⟩
    | true =>
      rw [liftedItem_keep keepComments hn (by rw [hload]; rfl)]
      exact ⟨rfl, hsingle.map_lifted keepComments⟩
  | true =>
    have hkept : keptComments keepComments x = fun key => if keepComments then comments key x else [] := by
      unfold keptComments
      rw [hload, Bool.not_true, Bool.or_false]
    have hitem := liftedItem_replaced keepComments (isNode_of_loads hload)
    rw [hkept, if_pos rfl]
    cases hs : split keepComments x with
    | error fault =>
      -- it would still be there, and still be a candidate
      rw [replaced_of_error hs, List.map_singleton] at hitem
      have hno := hdone _ (hitem ▸ List.mem_singleton_self _)
      rw [loads, isCandidate_lifted, ← loads, hload] at hno
      cases hno
    | ok r =>
      rw [hitem, replaced_of_split hload hs, List.length_map]
      exact ⟨length_split hload hs, (comments_split hload hx hs).map_lifted keepComments⟩

/-- **Comments are conserved.** Let the root of a tree be a program with a list of statements as its body, on which
the fields for comments are absent, null or lists. If the pass returns, each statement has given way to a block of
statements: to one for each of its declarators if it is a candidate, else to one. In a block only the first statement
has comments. The comments of the body, read in order, are those before the pass; or, if they are not to be kept,
those of the statements that are no candidates. -/
theorem run_conserves_comments (category : Value) (keepComments : Bool) (sink : Diagnostics) (tree : Value)
    (xs : List Value) (hjson : tree.isJson = true) (hprogram : tree.isA .program = true)
    (hbody : tree.get? "body" = some (.list 0 xs)) (hxs : ∀ x ∈ xs, commentable x = true)
    (hfault : (run category keepComments sink tree).fault = none) :
    ∃ blocks : List (List Value),
      (run category keepComments sink tree).tree.erase.get? "body" = some (.list 0 blocks.flatten) ∧
      List.Forall₂ (fun x block => block.length = (if loads x then (x.at "declarations").width else 1) ∧
        ∀ y ∈ block.tail, ∀ key ∈ Syntax.commentKeys, comments key y = []) xs blocks ∧
      ∀ key ∈ Syntax.commentKeys, blocks.flatten.flatMap (comments key)
        = (if keepComments then xs else xs.filter fun x => !loads x).flatMap (comments key) := by
  have hdone := run_completed hjson hfault
  have hafter : (run category keepComments sink tree).tree.erase.get? "body"
      = some (.list 0 (xs.flatMap (liftedItem keepComments true))) := by
    rw [hdone.erased]
    exact get?_lifted_program hprogram (by decide) hbody
  have hclean := hdone.loads_statement hprogram (by decide) hafter
  have hblock (x : Value) (hx : x ∈ xs) := comments_liftedItem (hxs x hx) fun y hy =>
    hclean y (List.mem_flatMap.mpr ⟨x, hx, hy⟩)
  refine ⟨xs.map (liftedItem keepComments true), by rw [hafter, List.flatMap_def], ?_, fun key hkey => ?_⟩
  · rw [List.forall₂_map_right_iff, List.forall₂_same]
    intro x hx
    obtain ⟨hlength, first, rest, heq, _, hrest⟩ := hblock x hx
    exact ⟨hlength, by rw [heq]; exact hrest⟩
  · rw [← flatMap_keptComments, ← List.flatMap_def, List.flatMap_assoc]
    exact List.flatMap_congr fun x hx => (hblock x hx).2.flatMap hkey

/-- A statement that loads nothing, with comments on both sides. -/
def Sample.remark : Value :=
  .new [("type", .text "EmptyStatement"), ("leadingComments", .newList [.text "second"]),
    ("trailingComments", .newList [.text "third", .text "fourth"])]

/-- A program with comments on a statement that is split and on one that is not. -/
def Sample.remarked : Value :=
  .new [("type", NodeType.program.value), ("body", .newList [Sample.declaration, Sample.remark])]

theorem run_conserves_comments_sample :
    Sample.remarked.isJson = true ∧ (∀ x ∈ [Sample.declaration, Sample.remark], commentable x = true) ∧
      (run (.text "commonjs") true (.empty .standard false) Sample.remarked).fault = none ∧
      ∃ blocks : List (List Value),
        (run (.text "commonjs") true (.empty .standard false) Sample.remarked).tree.erase.get? "body"
          = some (.list 0 blocks.flatten) ∧
        List.Forall₂ (fun x block => block.length = (if loads x then (x.at "declarations").width else 1) ∧
          ∀ y ∈ block.tail, ∀ key ∈ Syntax.commentKeys, comments key y = []) [Sample.declaration, Sample.remark]
          blocks ∧
        ∀ key ∈ Syntax.commentKeys, blocks.flatten.flatMap (comments key)
          = [Sample.declaration, Sample.remark].flatMap (comments key) :=
  ⟨by decide +kernel, by decide +kernel, by decide +kernel,
    run_conserves_comments _ _ _ Sample.remarked [Sample.declaration, Sample.remark] (by decide +kernel)
      (by decide +kernel) rfl (by decide +kernel) (by decide +kernel)⟩

end Lift

end EsmLift
