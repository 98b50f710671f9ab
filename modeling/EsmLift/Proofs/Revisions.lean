import EsmLift.Proofs.Compounds

/-!
# `Proofs.Revisions` — editing in place, seen from every occurrence

A trail keeps the current state of each edited object or list under its mark. Bringing a value up to date
(`Value.refresh`) is then a function of the value, and an edit is a substitution: after recording a new state
`c` of mark `m`, every value looks as before with `c` in place of each occurrence of `m` (`refresh_record`).

A value is **settled** if nothing in it is out of date. Revisions are **closed** if their own states are settled;
then refreshing always ends in a settled value, and doing it twice is doing it once.

## Contents

* `Value.Settled`, `Revisions.Closed`;
* `refresh_record`, `Closed.record`, `settled_record`: one edit;
* `Revised`: a run of edits that touches only the marks of a given list.
-/

namespace EsmLift

/-- Nothing in the value is out of date: what was edited is there in its current state. -/
def Value.Settled (R : Revisions) (v : Value) : Prop :=
  ∀ c ∈ v.compounds, R.lookup c.mark = none ∨ R.lookup c.mark = some c

/-- Each revision is kept under its own mark, and its state is up to date. -/
def Revisions.Closed (R : Revisions) : Prop :=
  ∀ m c, R.lookup m = some c → 0 < m ∧ c.mark = m ∧ c.Settled R

namespace Value

variable {R : Revisions} {m : Nat} {xs : List Value} {fs : Fields}

/-! ## Settled values -/

theorem settled_leaf {v : Value} (h : v.isCompound = false) : v.Settled R := by
  intro c hc
  rw [compounds_leaf h] at hc
  exact absurd hc List.not_mem_nil

theorem settled_list : (list m xs).Settled R ↔
    (R.lookup m = none ∨ R.lookup m = some (list m xs)) ∧ ∀ x ∈ xs, x.Settled R := by
  simp only [Settled, mem_compounds_list]
  constructor
  · intro h
    exact ⟨h _ (.inl rfl), fun x hx c hc => h c (.inr ⟨x, hx, hc⟩)⟩
  · rintro ⟨h, hxs⟩ c (rfl | ⟨x, hx, hc⟩)
    · exact h
    · exact hxs x hx c hc

theorem settled_tuple : (tuple xs).Settled R ↔
    (R.lookup 0 = none ∨ R.lookup 0 = some (tuple xs)) ∧ ∀ x ∈ xs, x.Settled R := by
  simp only [Settled, mem_compounds_tuple]
  constructor
  · intro h
    exact ⟨h _ (.inl rfl), fun x hx c hc => h c (.inr ⟨x, hx, hc⟩)⟩
  · rintro ⟨h, hxs⟩ c (rfl | ⟨x, hx, hc⟩)
    · exact h
    · exact hxs x hx c hc

theorem settled_object : (object m fs).Settled R ↔
    (R.lookup m = none ∨ R.lookup m = some (object m fs)) ∧ ∀ f ∈ fs, f.2.Settled R := by
  simp only [Settled, mem_compounds_object]
  constructor
  · intro h
    exact ⟨h _ (.inl rfl), fun f hf c hc => h c (.inr ⟨f, hf, hc⟩)⟩
  · rintro ⟨h, hfs⟩ c (rfl | ⟨f, hf, hc⟩)
    · exact h
    · exact hfs f hf c hc

theorem refresh_leaf {v : Value} (h : v.isCompound = false) : v.refresh R = v := by
  cases v <;> simp_all [isCompound, Value.refresh]

/-- A value whose parts are brought up to date. -/
def refreshParts (R : Revisions) : Value → Value
  | list m xs => list m (xs.map (Value.refresh R))
  | tuple xs => tuple (xs.map (Value.refresh R))
  | object m fs => object m (fs.map fun f => (f.1, f.2.refresh R))
  | v => v

/-- A value is brought up to date through its parts, unless it was edited itself. -/
theorem refresh_eq_parts (R : Revisions) (v : Value) :
    v.refresh R = if v.isCompound && !v.isTuple then (R.lookup v.mark).getD (v.refreshParts R)
      else v.refreshParts R := by
  cases v <;> simp [Value.refresh, refreshParts, isCompound, isTuple, mark]

theorem refreshParts_congr {R S T : Revisions} {v : Value} (h : ∀ w : Value, (w.refresh R).refresh S = w.refresh T) :
    (v.refreshParts R).refreshParts S = v.refreshParts T := by
  cases v <;> simp [refreshParts, h]

/-- A settled value is up to date. -/
theorem Settled.refresh {v : Value} (h : v.Settled R) : v.refresh R = v := by
  induction v using Value.induction with
  | leaf v hv => exact refresh_leaf hv
  | list m xs ih =>
    obtain ⟨hm, hxs⟩ := settled_list.mp h
    have hmap : xs.map (Value.refresh R) = xs := items_map_self fun x hx => ih x hx (hxs x hx)
    rcases hm with hm | hm <;> simp [Value.refresh, hm, hmap]
  | tuple xs ih =>
    obtain ⟨_, hxs⟩ := settled_tuple.mp h
    have hmap : xs.map (Value.refresh R) = xs := items_map_self fun x hx => ih x hx (hxs x hx)
    simp [Value.refresh, hmap]
  | object m fs ih =>
    obtain ⟨hm, hfs⟩ := settled_object.mp h
    have hmap : (fs.map fun f => (f.1, f.2.refresh R)) = fs :=
      Fields.map_self (g := fun _ v => v.refresh R) fun f hf => ih f hf (hfs f hf)
    rcases hm with hm | hm <;> simp [Value.refresh, hm, hmap]

/-- The parts of a settled value are up to date. -/
theorem Settled.refreshParts {v : Value} (h : v.Settled R) : v.refreshParts R = v := by
  cases v with
  | list m xs => rw [Value.refreshParts, items_map_self fun x hx => ((settled_list.mp h).2 x hx).refresh]
  | tuple xs => rw [Value.refreshParts, items_map_self fun x hx => ((settled_tuple.mp h).2 x hx).refresh]
  | object m fs =>
    rw [Value.refreshParts,
      Fields.map_self (g := fun _ v => v.refresh R) fun f hf => ((settled_object.mp h).2 f hf).refresh]
  | _ => rfl

/-- With closed revisions, bringing a value up to date settles it. -/
theorem settled_refresh (hR : R.Closed) (v : Value) : (v.refresh R).Settled R := by
  induction v using Value.induction with
  | leaf v hv => rw [refresh_leaf hv]; exact settled_leaf hv
  | list m xs ih =>
    cases hm : R.lookup m with
    | some c => simpa [Value.refresh, hm] using (hR m c hm).2.2
    | none =>
      simp only [Value.refresh, hm, Option.getD_none, refreshItems_eq_map]
      refine settled_list.mpr ⟨.inl hm, fun y hy => ?_⟩
      obtain ⟨x, hx, rfl⟩ := List.mem_map.mp hy
      exact ih x hx
  | tuple xs ih =>
    have h0 : R.lookup 0 = none := by
      cases h : R.lookup 0 with
      | none => rfl
      | some c => exact absurd (hR 0 c h).1 (Nat.lt_irrefl 0)
    simp only [Value.refresh, refreshItems_eq_map]
    refine settled_tuple.mpr ⟨.inl h0, fun y hy => ?_⟩
    obtain ⟨x, hx, rfl⟩ := List.mem_map.mp hy
    exact ih x hx
  | object m fs ih =>
    cases hm : R.lookup m with
    | some c => simpa [Value.refresh, hm] using (hR m c hm).2.2
    | none =>
      simp only [Value.refresh, hm, Option.getD_none, refreshFields_eq_map]
      refine settled_object.mpr ⟨.inl hm, fun g hg => ?_⟩
      obtain ⟨f, hf, rfl⟩ := List.mem_map.mp hg
      exact ih f hf

/-- Bringing a value up to date twice is doing it once. -/
theorem refresh_refresh (hR : R.Closed) (v : Value) : (v.refresh R).refresh R = v.refresh R :=
  (settled_refresh hR v).refresh

/-! ## One edit -/

/-- An occurrence of the edited mark is replaced. -/
theorem refresh_single_self {c d : Value} (hm : 0 < m) (hd : d.mark = m) : d.refresh [(m, c)] = c := by
  cases d with
  | list k ys => subst hd; simp [Value.refresh, mark]
  | object k fs => subst hd; simp [Value.refresh, mark]
  | _ => exact absurd hm (by simp_all [mark])

/-- A value without the edited mark stays. -/
theorem refresh_single_of_not_mem {c v : Value} (hm : m ∉ v.marks) : v.refresh [(m, c)] = v := by
  refine Settled.refresh fun d hd => .inl ?_
  have hne : d.mark ≠ m := fun h => hm (h ▸ List.mem_map_of_mem hd)
  have hne' : (d.mark == m) = false := by simpa using hne
  simp only [List.lookup_cons, hne', List.lookup_nil]

/-- An edit elsewhere goes on in the parts of a value. -/
theorem refresh_single_ne {c d : Value} (h : d.mark ≠ m) : d.refresh [(m, c)] = d.refreshParts [(m, c)] := by
  have hne : (d.mark == m) = false := by simpa using h
  rw [refresh_eq_parts, List.lookup_cons, hne]
  split <;> rfl

/-- An edit elsewhere keeps the mark of a value. -/
theorem mark_refresh_single {c d : Value} (h : d.mark ≠ m) : (d.refresh [(m, c)]).mark = d.mark := by
  have hne : (d.mark == m) = false := by simpa using h
  cases d with
  | list k xs => simp only [mark] at hne; simp [Value.refresh, List.lookup_cons, hne, mark]
  | object k fs => simp only [mark] at hne; simp [Value.refresh, List.lookup_cons, hne, mark]
  | _ => simp [Value.refresh, mark]

end Value

namespace Revisions

variable {R : Revisions} {m : Nat}

/-- The edited mark has its new state. -/
theorem lookup_record_self (R : Revisions) (m : Nat) (c : Value) : (R.record m c).lookup m = some c := by
  simp [record]

/-- The other states follow the edit. -/
theorem lookup_record_ne (R : Revisions) {m k : Nat} (c : Value) (h : k ≠ m) :
    (R.record m c).lookup k = (R.lookup k).map (Value.refresh [(m, c)]) := by
  have hk : (k == m) = false := by simpa using h
  simp only [record, List.lookup_cons, hk]
  induction R with
  | nil => rfl
  | cons r rest ih =>
    obtain ⟨j, d⟩ := r
    by_cases hj : j = m
    · subst hj
      simpa [List.lookup_cons, hk] using ih
    · by_cases hkj : k = j
      · subst hkj; simp [h]
      · have hkj' : (k == j) = false := by simpa using hkj
        simpa [List.lookup_cons, hj, hkj'] using ih

/-- **An edit is a substitution.** After recording a new state `c` of `m`, every value is as it was before, with
`c` in the place of `m`. -/
theorem refresh_record (hR : R.Closed) (hm : 0 < m) (c v : Value) :
    v.refresh (R.record m c) = (v.refresh R).refresh [(m, c)] := by
  induction v using Value.induction with
  | leaf v hv => rw [Value.refresh_leaf hv, Value.refresh_leaf hv, Value.refresh_leaf hv]
  | list k xs ih =>
    by_cases hk : k = m
    · subst hk
      have hmark : ((Value.list k xs).refresh R).mark = k := by
        cases hl : R.lookup k with
        | none => simp [Value.refresh, hl, Value.mark]
        | some d => simpa [Value.refresh, hl] using (hR k d hl).2.1
      rw [Value.refresh_single_self hm hmark, Value.refresh, lookup_record_self, Option.getD_some]
    · rw [Value.refresh, lookup_record_ne R c hk]
      cases hl : R.lookup k with
      | some d => simp [Value.refresh, hl]
      | none =>
        have hk' : (k == m) = false := by simpa using hk
        simpa [Value.refresh, hl, List.lookup_cons, hk'] using ih
  | tuple xs ih => simpa [Value.refresh] using ih
  | object k fs ih =>
    by_cases hk : k = m
    · subst hk
      have hmark : ((Value.object k fs).refresh R).mark = k := by
        cases hl : R.lookup k with
        | none => simp [Value.refresh, hl, Value.mark]
        | some d => simpa [Value.refresh, hl] using (hR k d hl).2.1
      rw [Value.refresh_single_self hm hmark, Value.refresh, lookup_record_self, Option.getD_some]
    · rw [Value.refresh, lookup_record_ne R c hk]
      cases hl : R.lookup k with
      | some d => simp [Value.refresh, hl]
      | none =>
        have hk' : (k == m) = false := by simpa using hk
        simpa [Value.refresh, hl, List.lookup_cons, hk'] using ih

/-- A settled value without the edited mark stays settled. -/
theorem settled_record {c v : Value} (hv : v.Settled R) (hm : m ∉ v.marks) : v.Settled (R.record m c) := by
  intro d hd
  have hne : d.mark ≠ m := fun h => hm (h ▸ List.mem_map_of_mem hd)
  have hmd : m ∉ d.marks := fun h => hm (Value.marks_of_compound hd h)
  rw [lookup_record_ne R c hne]
  rcases hv d hd with h | h
  · exact .inl (by rw [h]; rfl)
  · exact .inr (by rw [h, Option.map_some, Value.refresh_single_of_not_mem hmd])

/-- A settled value is settled again once the edit is carried out in it. -/
theorem settled_record_refresh {c : Value} (hm : 0 < m) (hc : c.Settled (R.record m c)) (v : Value)
    (hv : v.Settled R) : (v.refresh [(m, c)]).Settled (R.record m c) := by
  induction v using Value.induction with
  | leaf v h => rw [Value.refresh_leaf h]; exact Value.settled_leaf h
  | list k xs ih =>
    obtain ⟨hk, hxs⟩ := Value.settled_list.mp hv
    by_cases hkm : k = m
    · rw [Value.refresh_single_self hm (by exact hkm)]; exact hc
    · have heq : (Value.list k xs).refresh [(m, c)] = .list k (xs.map (Value.refresh [(m, c)])) :=
        Value.refresh_single_ne hkm
      rw [heq]
      refine Value.settled_list.mpr ⟨?_, fun y hy => ?_⟩
      · rw [lookup_record_ne R c hkm]
        exact hk.imp (by rintro h; rw [h]; rfl) (by rintro h; rw [h, Option.map_some, heq])
      · obtain ⟨x, hx, rfl⟩ := List.mem_map.mp hy
        exact ih x hx (hxs x hx)
  | tuple xs ih =>
    obtain ⟨h0, hxs⟩ := Value.settled_tuple.mp hv
    have heq : (Value.tuple xs).refresh [(m, c)] = .tuple (xs.map (Value.refresh [(m, c)])) :=
      Value.refresh_single_ne (Nat.ne_of_lt hm)
    rw [heq]
    refine Value.settled_tuple.mpr ⟨?_, fun y hy => ?_⟩
    · rw [lookup_record_ne R c (Nat.ne_of_lt hm)]
      exact h0.imp (by rintro h; rw [h]; rfl) (by rintro h; rw [h, Option.map_some, heq])
    · obtain ⟨x, hx, rfl⟩ := List.mem_map.mp hy
      exact ih x hx (hxs x hx)
  | object k fs ih =>
    obtain ⟨hk, hfs⟩ := Value.settled_object.mp hv
    by_cases hkm : k = m
    · rw [Value.refresh_single_self hm (by exact hkm)]; exact hc
    · have heq : (Value.object k fs).refresh [(m, c)] = .object k (fs.map fun f => (f.1, f.2.refresh [(m, c)])) :=
        Value.refresh_single_ne hkm
      rw [heq]
      refine Value.settled_object.mpr ⟨?_, fun g hg => ?_⟩
      · rw [lookup_record_ne R c hkm]
        exact hk.imp (by rintro h; rw [h]; rfl) (by rintro h; rw [h, Option.map_some, heq])
      · obtain ⟨f, hf, rfl⟩ := List.mem_map.mp hg
        exact ih f hf (hfs f hf)

/-- Recording a state whose parts are up to date keeps the revisions closed. -/
theorem Closed.record {c : Value} (hR : R.Closed) (hm : 0 < m) (hmark : c.mark = m)
    (hc : c.Settled (R.record m c)) : (R.record m c).Closed := by
  intro k d hk
  by_cases hkm : k = m
  · subst hkm
    rw [lookup_record_self] at hk
    obtain rfl := Option.some.inj hk
    exact ⟨hm, hmark, hc⟩
  · rw [lookup_record_ne R c hkm] at hk
    obtain ⟨e, he, rfl⟩ := Option.map_eq_some_iff.mp hk
    obtain ⟨hpos, hemark, hes⟩ := hR k e he
    refine ⟨hpos, ?_, settled_record_refresh hm hc e hes⟩
    rw [Value.mark_refresh_single (hemark ▸ hkm), hemark]

end Revisions

/-! ## Runs of edits -/

/-- Revisions `R'` come from `R` by edits of marks in `touched`. Whatever was up to date and has none of these
marks still is, and what is kept under another mark changes in its parts only. -/
structure Revised (touched : List Nat) (R R' : Revisions) : Prop where
  closed : R'.Closed
  /-- What was current once is brought up to date like the value it came from. -/
  again : ∀ v : Value, (v.refresh R).refresh R' = v.refresh R'
  keep : ∀ v : Value, v.Settled R → (∀ m ∈ v.marks, m ∉ touched) → v.Settled R'
  other : ∀ m, m ∉ touched → R'.lookup m = (R.lookup m).map (Value.refreshParts R')

namespace Revised

variable {A B : List Nat} {R R' R'' : Revisions}

/-- No edit at all. -/
theorem refl (hR : R.Closed) : Revised A R R where
  closed := hR
  again v := Value.refresh_refresh hR v
  keep _ hv _ := hv
  other m _ := by
    cases hl : R.lookup m with
    | none => rfl
    | some c => rw [Option.map_some, (hR m c hl).2.2.refreshParts]

/-- One run of edits after another. -/
theorem trans (h : Revised A R R') (h' : Revised B R' R'') : Revised (A ++ B) R R'' where
  closed := h'.closed
  again v := by rw [← h'.again (v.refresh R), h.again v, h'.again v]
  keep v hv hm :=
    h'.keep v (h.keep v hv fun m hmv hA => hm m hmv (List.mem_append_left B hA))
      fun m hmv hB => hm m hmv (List.mem_append_right A hB)
  other m hm := by
    rw [h'.other m fun hB => hm (List.mem_append_right A hB), h.other m fun hA => hm (List.mem_append_left B hA),
      Option.map_map]
    exact congrArg (Option.map · _) (funext fun v => Value.refreshParts_congr h'.again)

/-- More marks may be named than were touched. -/
theorem mono (h : Revised A R R') (hAB : ∀ m ∈ A, m ∈ B) : Revised B R R' where
  closed := h.closed
  again := h.again
  keep v hv hm := h.keep v hv fun m hmv hA => hm m hmv (hAB m hA)
  other m hm := h.other m fun hA => hm (hAB m hA)

/-- What is brought up to date after the edits, if it has none of the edited marks, was current before. -/
theorem refresh_eq (h : Revised A R R') {v : Value} (hv : v.Settled R) (hm : ∀ m ∈ v.marks, m ∉ A) :
    v.refresh R' = v :=
  (h.keep v hv hm).refresh

/-- A mark without a revision gets none by edits of other marks. -/
theorem lookup_none (h : Revised A R R') {m : Nat} (hm : m ∉ A) (hl : R.lookup m = none) : R'.lookup m = none := by
  rw [h.other m hm, hl, Option.map_none]

/-- A current value that was not edited itself changes in its parts only. -/
theorem refresh_parts (h : Revised A R R') {v : Value} (hv : v.Settled R) (hm : v.mark ∉ A) :
    v.refresh R' = v.refreshParts R' := by
  rw [Value.refresh_eq_parts, h.other _ hm]
  by_cases hc : (v.isCompound && !v.isTuple) = true
  · rw [if_pos hc]
    have hself : v ∈ v.compounds := by cases v <;> first | exact List.mem_cons_self | cases hc
    rcases hv v hself with hl | hl <;> rw [hl] <;> rfl
  · rw [if_neg hc]

/-- One edit touches the edited mark only. -/
theorem record {m : Nat} {c : Value} (hR : R.Closed) (hm : 0 < m) (hmark : c.mark = m)
    (hself : c.Settled (R.record m c)) : Revised [m] R (R.record m c) := by
  have hsub (v : Value) := Revisions.refresh_record hR hm c v
  refine ⟨hR.record hm hmark hself, fun v => ?_, fun v hv hmv => ?_, fun k hk => ?_⟩
  · rw [hsub, Value.refresh_refresh hR, hsub]
  · exact Revisions.settled_record hv fun h => hmv m h List.mem_cons_self
  · have hkm : k ≠ m := fun h => hk (List.mem_singleton.mpr h)
    rw [Revisions.lookup_record_ne R _ hkm]
    cases hl : R.lookup k with
    | none => rfl
    | some d =>
      obtain ⟨_, hmark, hd⟩ := hR k d hl
      have hcongr := Value.refreshParts_congr (v := d) fun v => (hsub v).symm
      rw [hd.refreshParts] at hcongr
      rw [Option.map_some, Option.map_some, Value.refresh_single_ne (hmark ▸ hkm), hcongr]

/-- New items for a list, all of them up to date and none of them holding the list. -/
theorem recordList {m : Nat} {xs : List Value} (hR : R.Closed) (hm : 0 < m) (hxs : ∀ x ∈ xs, x.Settled R)
    (hout : m ∉ Value.marksItems xs) : Revised [m] R (R.recordList m xs) ∧
      (R.recordList m xs).lookup m = some (.list m xs) := by
  have hmap : refreshItems R xs = xs := by
    rw [refreshItems_eq_map]; exact items_map_self fun x hx => (hxs x hx).refresh
  have hself : (Value.list m xs).Settled (R.record m (.list m xs)) := by
    refine Value.settled_list.mpr ⟨.inr (Revisions.lookup_record_self ..), fun x hx => ?_⟩
    exact Revisions.settled_record (hxs x hx) fun h => hout (List.mem_flatMap.mpr ⟨x, hx, h⟩)
  rw [Revisions.recordList, hmap]
  exact ⟨record hR hm rfl hself, Revisions.lookup_record_self ..⟩

/-- New fields for an object, all of them up to date and none of them holding the object. -/
theorem recordObject {m : Nat} {fs : Fields} (hR : R.Closed) (hm : 0 < m) (hfs : ∀ f ∈ fs, f.2.Settled R)
    (hout : m ∉ Value.marksFields fs) : Revised [m] R (R.recordObject m fs) ∧
      (R.recordObject m fs).lookup m = some (.object m fs) := by
  have hmap : refreshFields R fs = fs := by
    rw [refreshFields_eq_map]
    exact Fields.map_self (g := fun _ v => v.refresh R) fun f hf => (hfs f hf).refresh
  have hself : (Value.object m fs).Settled (R.record m (.object m fs)) := by
    refine Value.settled_object.mpr ⟨.inr (Revisions.lookup_record_self ..), fun f hf => ?_⟩
    exact Revisions.settled_record (hfs f hf) fun h => hout (List.mem_flatMap.mpr ⟨f, hf, h⟩)
  rw [Revisions.recordObject, hmap]
  exact ⟨record hR hm rfl hself, Revisions.lookup_record_self ..⟩

end Revised
end EsmLift
