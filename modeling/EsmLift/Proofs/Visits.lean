import EsmLift.Proofs.Expansion
import EsmLift.Proofs.Revisions

/-!
# `Proofs.Visits` — what a part of the walk leaves behind

The pass walks through a part of the tree from one trail to the next. `Visited` says everything that the rest of
the walk has to know about it: which marks may have been edited (those that were pending), where the marks of the
result come from, which nodes were reached, and that exactly the candidates among them were rejected and warned
about. Two parts that follow each other are one part (`Visited.trans`), provided that the second one edits nothing
that the first one left behind.

## Contents

* `Lift.ask_cases`: all that can happen at one node;
* `Warned`: warnings about nodes, one after another;
* `Trail.Sound`, `Trail.Ready`: what a trail and a part of the tree must satisfy before the walk;
* `Visited`, `Visited.trans`, `Visited.enter`, `Visited.reject`.
-/

namespace EsmLift

open Value

namespace Lift

/-- **All that can happen at one node.** A fault, or the node is kept without a word, or it is kept with a warning,
or it is split. -/
theorem ask_cases (category : Value) (keepComments : Bool) (v : Value) (owner : Option Value) (t : Trail Memory) :
    (∃ fault t', (visitor category keepComments).ask v owner t = (.error fault, t')) ∨
    (Statement.isCandidate v = .ok false ∧ (visitor category keepComments).ask v owner t = (.ok .keep, t)) ∨
    (Statement.isCandidate v = .ok true ∧ isProgram owner = false ∧ ∃ sink,
      t.memory.sink.warn v (.text rootLevelMessage) category = (.ok (), sink) ∧
      (visitor category keepComments).ask v owner t = (.ok .keep,
        { t with memory := { t.memory with sink := sink, rejected := t.memory.rejected ++ [v] } })) ∨
    (Statement.isCandidate v = .ok true ∧ isProgram owner = true ∧ ∃ r, Statement.split keepComments v = .ok r ∧
      (visitor category keepComments).ask v owner t = (.ok (Answer.stamp t.next (.splice r)).1,
        { t with
          memory := { t.memory with replacements := t.memory.replacements ++ [r] }
          next := (Answer.stamp t.next (.splice r)).2 })) := by
  unfold Visitor.ask visitor
  dsimp only
  cases hc : Statement.isCandidate v with
  | error fault => exact .inl ⟨fault, t, rfl⟩
  | ok b =>
    cases b with
    | false => exact .inr (.inl ⟨rfl, rfl⟩)
    | true =>
      cases hp : isProgram owner with
      | true =>
        cases hs : Statement.split keepComments v with
        | error fault => exact .inl ⟨fault, t, rfl⟩
        | ok r => exact .inr (.inr (.inr ⟨rfl, rfl, r, rfl, rfl⟩))
      | false =>
        rcases hw : t.memory.sink.warn v (.text rootLevelMessage) category with ⟨fault | _, sink⟩
        · exact .inl ⟨fault, _, rfl⟩
        · exact .inr (.inr (.inl ⟨rfl, rfl, sink, rfl, rfl⟩))

/-- The pass never puts another node in the place of one. -/
theorem ask_ne_node (category : Value) (keepComments : Bool) (v : Value) (owner : Option Value) (t t' : Trail Memory)
    (n : Value) : (visitor category keepComments).ask v owner t ≠ (.ok (.node n), t') := by
  intro hask
  rcases ask_cases category keepComments v owner t with
    ⟨fault, t'', h⟩ | ⟨_, h⟩ | ⟨_, _, sink, _, h⟩ | ⟨_, _, r, _, h⟩ <;> rw [hask] at h <;> cases h

end Lift

/-! ## Lines and warnings -/

namespace Syntax

/-- A line that is found without marks is found with them. -/
theorem line_erase (line : Value) :
    (if isLine line.erase then line.erase else .int 0) = if isLine line then line else .int 0 := by
  cases line with
  | list m xs => rw [Value.erase_list]; rfl
  | tuple xs => rw [Value.erase_tuple]; rfl
  | object m fs => rw [Value.erase_object]; rfl
  | _ => rfl

theorem startLine_erase (v : Value) : startLine v.erase = startLine v := by
  unfold startLine
  rw [Value.get?_erase]
  rcases v.get? "loc" with _ | w
  · rfl
  · cases w with
    | object m loc =>
      have hstart : (((loc.map fun (f : String × Value) => (f.1, f.2.erase)).lookup "start").getD .null)
          = ((loc.lookup "start").getD .null).erase := by
        rw [Value.lookup_erase]
        cases loc.lookup "start" <;> rfl
      rw [Option.map_some, Value.erase_object]
      dsimp only
      rw [hstart, Value.truthy_erase]
      generalize (loc.lookup "start").getD .null = start
      have hfield : (if start.truthy then start.erase else .new []).field "line"
          = ((if start.truthy then start else .new []).field "line").map Value.erase := by
        rw [← Value.field_erase]
        split <;> rfl
      rw [hfield]
      cases (if start.truthy then start else .new []).field "line" with
      | error fault => rfl
      | ok line => exact congrArg Except.ok (line_erase line)
    | list m xs => rw [Option.map_some, Value.erase_list]
    | tuple xs => rw [Option.map_some, Value.erase_tuple]
    | _ => rfl

/-- The line of a node is metadata: lifting does not change it. -/
theorem startLine_lifted (keepComments : Bool) (v : Value) : startLine (Lift.lifted keepComments v) = startLine v := by
  unfold startLine
  rw [Lift.get?_lifted keepComments v (by decide)]

end Syntax

/-- A warning depends on the line of the node only. -/
theorem Diagnostics.warn_congr {v w : Value} (h : Syntax.startLine v = Syntax.startLine w) (d : Diagnostics)
    (message category : Value) : d.warn v message category = d.warn w message category := by
  unfold Diagnostics.warn Diagnostics.warningAt
  rw [h]

/-- Warnings about the given nodes, in order, lead from one sink to another. -/
inductive Warned (category : Value) : Diagnostics → List Value → Diagnostics → Prop where
  | nil (d : Diagnostics) : Warned category d [] d
  | cons {d d' d'' : Diagnostics} {v : Value} {rest : List Value}
      (first : d.warn v (.text Lift.rootLevelMessage) category = (.ok (), d'))
      (later : Warned category d' rest d'') : Warned category d (v :: rest) d''

theorem Warned.append {category : Value} {d d' d'' : Diagnostics} {xs ys : List Value}
    (h : Warned category d xs d') (h' : Warned category d' ys d'') : Warned category d (xs ++ ys) d'' := by
  induction h with
  | nil d => exact h'
  | cons first _ ih => exact .cons first (ih h')

/-! ## Trails -/

/-- The revisions of a trail are closed, and no mark that is still free has one. -/
structure Trail.Sound {σ : Type} (t : Trail σ) : Prop where
  pos : 0 < t.next
  closed : t.revisions.Closed
  fresh : ∀ m, t.next ≤ m → t.revisions.lookup m = none

/-- Giving marks keeps a trail sound. -/
theorem Trail.Sound.later {σ : Type} {t t' : Trail σ} (h : t.Sound) (hrev : t'.revisions = t.revisions)
    (hle : t.next ≤ t'.next) : t'.Sound :=
  ⟨Nat.lt_of_lt_of_le h.pos hle, hrev ▸ h.closed, fun m hm => hrev ▸ h.fresh m (Nat.le_trans hle hm)⟩

theorem Answer.le_stamp (next : Nat) (answer : Answer) : next ≤ (answer.stamp next).2 := by
  cases answer with
  | keep => exact Nat.le_refl next
  | node v => exact (count_marks_stamp Nat.one_pos next v).1
  | splice r =>
    exact Nat.le_trans (count_marks_stamp Nat.one_pos next r.target).1 (count_marks_stampItems Nat.one_pos _ r.nodes).1

/-- A question edits nothing, and takes no mark back. -/
theorem Visitor.ask_keeps {σ : Type} {V : Visitor σ} {v : Value} {owner : Option Value} {t t' : Trail σ}
    {answer : Except Fault Answer} (h : V.ask v owner t = (answer, t')) :
    t'.revisions = t.revisions ∧ t.next ≤ t'.next := by
  unfold Visitor.ask at h
  rcases hv : V.enter v owner t.memory with ⟨fault | answer, memory⟩
  · rw [hv] at h
    cases h
    exact ⟨rfl, Nat.le_refl _⟩
  · rw [hv] at h
    cases h
    exact ⟨rfl, Answer.le_stamp t.next answer⟩

/-- A part of the tree can be walked through: its marks are in use, and what is pending occurs once. -/
structure Trail.Ready (t : Trail Lift.Memory) (pend marks : List Nat) : Prop where
  bounded : ∀ m ∈ marks, 0 < m ∧ m < t.next
  once : ∀ m ∈ pend, marks.count m ≤ 1

namespace Trail.Ready

variable {t t' : Trail Lift.Memory} {pend pend' marks marks' : List Nat}

/-- Of two places for a mark that occurs once, one is empty. -/
theorem disjoint {m : Nat} (h : t.Ready pend (marks ++ marks')) (hp : m ∈ pend) (hm : m ∈ marks) : m ∉ marks' := by
  intro hm'
  have hle := h.once m hp
  rw [List.count_append] at hle
  have h1 := List.count_pos_iff.mpr hm
  have h2 := List.count_pos_iff.mpr hm'
  omega

/-- A part of what can be walked through can be walked through. -/
theorem sub (h : t.Ready pend marks) (hp : ∀ m ∈ pend', m ∈ pend) (hm : ∀ m, marks'.count m ≤ marks.count m) :
    t.Ready pend' marks' where
  bounded m hmem := h.bounded m (List.count_pos_iff.mp (Nat.lt_of_lt_of_le (List.count_pos_iff.mpr hmem) (hm m)))
  once m hmem := Nat.le_trans (hm m) (h.once m (hp m hmem))

theorem left (h : t.Ready (pend ++ pend') (marks ++ marks')) : t.Ready pend marks :=
  h.sub (fun m hm => List.mem_append_left _ hm) fun m => by rw [List.count_append]; exact Nat.le_add_right _ _

theorem right (h : t.Ready (pend ++ pend') (marks ++ marks')) : t.Ready pend' marks' :=
  h.sub (fun m hm => List.mem_append_right _ hm) fun m => by rw [List.count_append]; exact Nat.le_add_left _ _

/-- A mark that occurs once and comes first does not come again. -/
theorem head_not_mem {m : Nat} (h : t.Ready pend (m :: marks)) (hp : m ∈ pend) : m ∉ marks :=
  disjoint (show t.Ready pend ([m] ++ marks) from h) hp List.mem_cons_self

/-- Later there are only more marks in use. -/
theorem later (h : t.Ready pend marks) (hle : t.next ≤ t'.next) : t'.Ready pend marks where
  bounded m hm := ⟨(h.bounded m hm).1, Nat.lt_of_lt_of_le (h.bounded m hm).2 hle⟩
  once := h.once

end Trail.Ready

/-! ## A part of the walk -/

/-- The walk went through a part of the tree, from trail `t` to trail `t'`. The marks in `pend` may have been
edited, `ins` are the marks that the part had before and `outs` those it has now, and `nodes` are the nodes reached
in it as it is now, each with its owner. -/
structure Visited (category : Value) (pend ins outs : List Nat) (nodes : List (Value × Value))
    (t t' : Trail Lift.Memory) : Prop where
  next_le : t.next ≤ t'.next
  revised : Revised pend t.revisions t'.revisions
  origin : ∀ m ∈ outs, m ∈ ins ∨ t.next ≤ m ∧ m < t'.next
  /-- No candidate is left where a program owns it. -/
  clean : ∀ p ∈ nodes, ∃ b, Statement.isCandidate p.2 = .ok b ∧ (b = true → p.1.isA .program = false)
  inside : ∀ p ∈ nodes, p.2.Settled t'.revisions ∧ ∀ m ∈ p.2.marks, m ∈ outs
  rejected : ∃ news, t'.memory.rejected = t.memory.rejected ++ news ∧
    news.map (Value.refresh t'.revisions) = candidatesOf nodes
  warned : Warned category t.memory.sink (candidatesOf nodes) t'.memory.sink

namespace Visited

variable {category : Value} {pend pend₁ pend₂ ins ins₁ ins₂ outs outs₁ outs₂ : List Nat}
  {nodes nodes₁ nodes₂ : List (Value × Value)} {t t₁ t₂ : Trail Lift.Memory}

/-- Nothing was reached. -/
theorem refl (ht : t.Sound) : Visited category pend ins ins [] t t where
  next_le := Nat.le_refl _
  revised := .refl ht.closed
  origin _ hm := .inl hm
  clean _ hp := absurd hp List.not_mem_nil
  inside _ hp := absurd hp List.not_mem_nil
  rejected := ⟨[], (List.append_nil _).symm, rfl⟩
  warned := .nil _

/-- The trail stays sound. -/
theorem sound (h : Visited category pend ins outs nodes t t₁) (ht : t.Sound) (hp : ∀ m ∈ pend, m < t.next) :
    t₁.Sound where
  pos := Nat.lt_of_lt_of_le ht.pos h.next_le
  closed := h.revised.closed
  fresh m hm := by
    have hle := Nat.le_trans h.next_le hm
    exact h.revised.lookup_none (fun hmem => absurd (hp m hmem) (Nat.not_lt.mpr hle)) (ht.fresh m hle)

/-- The marks that a part has now are in use. -/
theorem bounded (h : Visited category pend ins outs nodes t t₁) (ht : t.Sound)
    (hi : ∀ m ∈ ins, 0 < m ∧ m < t.next) : ∀ m ∈ outs, 0 < m ∧ m < t₁.next := by
  intro m hm
  have hle := h.next_le
  have hpos := ht.pos
  rcases h.origin m hm with hin | hnew
  · have hb := hi m hin
    exact ⟨hb.1, by omega⟩
  · exact ⟨by omega, hnew.2⟩

/-- **One part after another.** The second part must not edit what the first one left behind. -/
theorem trans (h₁ : Visited category pend₁ ins₁ outs₁ nodes₁ t t₁)
    (h₂ : Visited category pend₂ ins₂ outs₂ nodes₂ t₁ t₂) (hsep : ∀ m ∈ pend₂, m ∉ outs₁)
    (hp₁ : ∀ m ∈ pend₁, m ∈ pend) (hp₂ : ∀ m ∈ pend₂, m ∈ pend) (hi₁ : ∀ m ∈ ins₁, m ∈ ins)
    (hi₂ : ∀ m ∈ ins₂, m ∈ ins ∨ t.next ≤ m ∧ m < t₁.next) :
    Visited category pend ins (outs₁ ++ outs₂) (nodes₁ ++ nodes₂) t t₂ where
  next_le := Nat.le_trans h₁.next_le h₂.next_le
  revised := (h₁.revised.trans h₂.revised).mono fun m hm => (List.mem_append.mp hm).elim (hp₁ m) (hp₂ m)
  origin m hm := by
    have hle₁ := h₁.next_le
    have hle₂ := h₂.next_le
    rcases List.mem_append.mp hm with hm | hm
    · exact (h₁.origin m hm).imp (hi₁ m) fun h => by omega
    · rcases h₂.origin m hm with hin | hnew
      · exact (hi₂ m hin).imp id fun h => by omega
      · exact .inr (by omega)
  clean p hp := (List.mem_append.mp hp).elim (h₁.clean p) (h₂.clean p)
  inside p hp := by
    rcases List.mem_append.mp hp with hp | hp
    · obtain ⟨hs, hm⟩ := h₁.inside p hp
      refine ⟨h₂.revised.keep _ hs fun m hmp hpend => hsep m hpend (hm m hmp), fun m hmp => ?_⟩
      exact List.mem_append_left _ (hm m hmp)
    · obtain ⟨hs, hm⟩ := h₂.inside p hp
      exact ⟨hs, fun m hmp => List.mem_append_right _ (hm m hmp)⟩
  rejected := by
    obtain ⟨news₁, hrej₁, hnews₁⟩ := h₁.rejected
    obtain ⟨news₂, hrej₂, hnews₂⟩ := h₂.rejected
    refine ⟨news₁ ++ news₂, by rw [hrej₂, hrej₁, List.append_assoc], ?_⟩
    -- what the first part rejected is still as it was
    have hkeep : news₁.map (Value.refresh t₂.revisions) = candidatesOf nodes₁ := by
      have hagain : news₁.map (Value.refresh t₂.revisions)
          = (news₁.map (Value.refresh t₁.revisions)).map (Value.refresh t₂.revisions) := by
        rw [List.map_map]
        exact List.map_congr_left fun v _ => (h₂.revised.again v).symm
      rw [hagain, hnews₁]
      refine items_map_self fun c hc => ?_
      obtain ⟨p, hp, rfl⟩ := List.mem_map.mp (List.mem_of_mem_filter hc)
      obtain ⟨hs, hm⟩ := h₁.inside p hp
      exact h₂.revised.refresh_eq hs fun m hmp hpend => hsep m hpend (hm m hmp)
    rw [List.map_append, hkeep, hnews₂, candidatesOf_append]
  warned := by
    rw [candidatesOf_append]
    exact h₁.warned.append h₂.warned

/-- A part that comes second edits nothing that the first one left behind, if what is pending occurs once. -/
theorem apart (h : Visited category pend₁ ins₁ outs₁ nodes t t₁)
    (hr : t.Ready (pend₁ ++ pend₂) (ins₁ ++ ins₂)) (hp : ∀ m ∈ pend₂, m ∈ ins₂) : ∀ m ∈ pend₂, m ∉ outs₁ := by
  intro m hm hout
  rcases h.origin m hout with hin | hnew
  · exact hr.disjoint (List.mem_append_right _ hm) hin (hp m hm)
  · have hlt := (hr.right.bounded m (hp m hm)).2
    omega

/-- What the first part left behind is still current after the second one. -/
theorem still (h : Visited category pend ins outs nodes t t₁) {u v : Value} (ht : t.Sound)
    (hv : v = u.refresh t.revisions) (hsep : ∀ m ∈ pend, m ∉ v.marks) : v = u.refresh t₁.revisions := by
  have hs : v.Settled t.revisions := hv ▸ settled_refresh ht.closed u
  have hkeep := h.revised.refresh_eq hs fun m hm hpend => hsep m hpend hm
  rw [hv, h.revised.again, ← hv] at hkeep
  exact hkeep.symm

/-- More may be pending, and more marks may be there. -/
theorem mono (h : Visited category pend₁ ins₁ outs₁ nodes t t₁) (hp : ∀ m ∈ pend₁, m ∈ pend)
    (hi : ∀ m ∈ ins₁, m ∈ ins) (ho : ∀ m ∈ outs₁, m ∈ outs) (ho' : ∀ m ∈ outs, m ∈ outs₁ ∨ m ∈ ins) :
    Visited category pend ins outs nodes t t₁ where
  next_le := h.next_le
  revised := h.revised.mono hp
  origin m hm := by
    rcases ho' m hm with hm | hm
    · exact (h.origin m hm).imp (hi m) id
    · exact .inl hm
  clean := h.clean
  inside p hp := ⟨(h.inside p hp).1, fun m hm => ho m ((h.inside p hp).2 m hm)⟩
  rejected := h.rejected
  warned := h.warned

/-- A node that is no candidate, and what is below it. -/
theorem enter {o v : Value} (h : Visited category pend ins v.marks nodes t t₁)
    (hv : Statement.isCandidate v = .ok false) (hs : v.Settled t₁.revisions) :
    Visited category pend ins v.marks ((o, v) :: nodes) t t₁ := by
  have hcand : candidatesOf ((o, v) :: nodes) = candidatesOf nodes := by
    rw [candidatesOf_cons, Statement.loads, hv]
    rfl
  refine ⟨h.next_le, h.revised, h.origin, ?_, ?_, hcand ▸ h.rejected, hcand ▸ h.warned⟩
  · exact List.forall_mem_cons.mpr ⟨⟨false, hv, fun hf => by cases hf⟩, h.clean⟩
  · exact List.forall_mem_cons.mpr ⟨⟨hs, fun m hm => hm⟩, h.inside⟩

/-- A candidate that is rejected, and what is below it. It was warned about as `u`, before the walk below it. -/
theorem reject {o u v : Value} {sink : Diagnostics} {t₀ : Trail Lift.Memory}
    (h : Visited category pend ins v.marks nodes t₀ t₁)
    (ht₀ : t₀ = { t with memory := { t.memory with sink := sink, rejected := t.memory.rejected ++ [u] } })
    (hv : Statement.isCandidate v = .ok true) (ho : o.isA .program = false) (hs : v.Settled t₁.revisions)
    (hu : u.refresh t₁.revisions = v)
    (hw : t.memory.sink.warn v (.text Lift.rootLevelMessage) category = (.ok (), sink)) :
    Visited category pend ins v.marks ((o, v) :: nodes) t t₁ := by
  subst ht₀
  have hcand : candidatesOf ((o, v) :: nodes) = v :: candidatesOf nodes := by
    rw [candidatesOf_cons, if_pos (Statement.loads_iff.mpr hv)]
    rfl
  refine ⟨h.next_le, h.revised, h.origin, ?_, ?_, ?_, ?_⟩
  · exact List.forall_mem_cons.mpr ⟨⟨true, hv, fun _ => ho⟩, h.clean⟩
  · exact List.forall_mem_cons.mpr ⟨⟨hs, fun m hm => hm⟩, h.inside⟩
  · obtain ⟨news, hrej, hnews⟩ := h.rejected
    refine ⟨u :: news, by rw [hrej, List.append_assoc]; rfl, ?_⟩
    rw [List.map_cons, hu, hnews, hcand]
  · rw [hcand]
    exact .cons hw h.warned

/-- The same part, seen from a trail that differs in its replacements and in the marks that were given since. -/
theorem rebase {t₀ : Trail Lift.Memory} (h : Visited category pend₁ ins₁ outs nodes t₀ t₁)
    (hnext : t.next ≤ t₀.next) (hrev : t₀.revisions = t.revisions) (hsink : t₀.memory.sink = t.memory.sink)
    (hrej : t₀.memory.rejected = t.memory.rejected) (hp : ∀ m ∈ pend₁, m ∈ pend)
    (hi : ∀ m ∈ ins₁, m ∈ ins ∨ t.next ≤ m ∧ m < t₀.next) : Visited category pend ins outs nodes t t₁ where
  next_le := Nat.le_trans hnext h.next_le
  revised := hrev ▸ h.revised.mono hp
  origin m hm := by
    have hle := h.next_le
    rcases h.origin m hm with hin | hnew
    · exact (hi m hin).imp id fun h => by omega
    · exact .inr (by omega)
  clean := h.clean
  inside := h.inside
  rejected := hrej ▸ h.rejected
  warned := hsink ▸ h.warned

/-- The new state of a list is kept. -/
theorem record (ht : t.Sound) {m : Nat} {xs : List Value} (hm : 0 < m) (hxs : ∀ x ∈ xs, x.Settled t.revisions)
    (hout : m ∉ marksItems xs) : Visited category [m] [] [] [] t (t.recordList m xs) where
  next_le := Nat.le_refl _
  revised := (Revised.recordList ht.closed hm hxs hout).1
  origin _ hk := absurd hk List.not_mem_nil
  clean _ hp := absurd hp List.not_mem_nil
  inside _ hp := absurd hp List.not_mem_nil
  rejected := ⟨[], (List.append_nil _).symm, rfl⟩
  warned := .nil _

end Visited
end EsmLift
