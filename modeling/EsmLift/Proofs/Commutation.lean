import EsmLift.Proofs.Loads
import Mathlib.Data.List.Nodup

/-!
# `Proofs.Commutation` — independent replacements commute

A request looks for its statement by identity, wherever earlier requests have moved it. Requests for different
statements of one list do not get in each other's way: each finds its statement, whatever the order, and the list in
the end is the one with every statement replaced in its place. A request that was carried out finds nothing any more.

What carries the proof is a number: the statement of each request that is still to come stands in the list exactly
once. A splice takes away one other statement and puts in nodes that are nobody's statement, so the number stays.

## Contents

* `Value.same_iff`: identity of objects, by their marks;
* `Replacement.applyAll`, `Replacement.replaceAll`: requests one after another, and all at once;
* `Replacement.StandsAt`: the one place of a statement;
* `Replacement.Pending`, `Replacement.Pending.apply`: what one request keeps;
* `Replacement.Pending.applyAll`, `Replacement.replaceAll_perm`;
* `Replacement.Independent`, `Replacement.applyAll_commutes`.
-/

namespace EsmLift

open Value

/-! ## Identity of objects -/

/-- What is the same as an object is an object with its mark. -/
theorem Value.same_iff {v w : Value} (hw : w.isObject = true) :
    v.same w = true ↔ v.isObject = true ∧ v.mark = w.mark ∧ w.mark ≠ 0 := by
  cases w with
  | object m fs =>
    cases v with
    | object k gs =>
      simp only [same, isObject, mark, Bool.and_eq_true, beq_iff_eq, bne_iff_ne, true_and]
      constructor
      · rintro ⟨rfl, hk⟩
        exact ⟨rfl, hk⟩
      · rintro ⟨rfl, hk⟩
        exact ⟨rfl, hk⟩
    | _ => simp [same, isObject]
  | _ => cases hw

namespace Replacement

/-! ## Requests one after another, and all at once -/

/-- Carries out requests one after another on one list. Each answers with the position where it found its statement,
or with a fault; a request that fails leaves the list alone. -/
def applyAll : List Replacement → List Value → List (Except Fault Nat) × List Value
  | [], body => ([], body)
  | r :: rest, body =>
    match r.apply body with
    | .ok (position, body) =>
      let (answers, body) := applyAll rest body
      (.ok position :: answers, body)
    | .error fault =>
      let (answers, body) := applyAll rest body
      (.error fault :: answers, body)

/-- What stands in the place of a statement when all requests have been carried out. -/
def standIn (rs : List Replacement) (v : Value) : List Value :=
  match rs.find? fun r => v.same r.target with
  | some r => r.nodes
  | none => [v]

/-- The list with every statement replaced in its place. -/
def replaceAll (rs : List Replacement) (body : List Value) : List Value := body.flatMap (standIn rs)

/-- The statement stands at this position of a list and at no other. -/
def StandsAt (target : Value) (position : Nat) (body : List Value) : Prop :=
  ∀ i, (∃ v, body[i]? = some v ∧ v.same target = true) ↔ i = position

theorem standIn_of_none {rs : List Replacement} {v : Value} (h : ∀ r ∈ rs, v.same r.target = false) :
    standIn rs v = [v] := by
  have hfind : (rs.find? fun r => v.same r.target) = none :=
    List.find?_eq_none.mpr fun r hr => by rw [h r hr]; exact Bool.false_ne_true
  rw [standIn, hfind]

theorem standIn_cons_self {r : Replacement} {v : Value} (rest : List Replacement) (h : v.same r.target = true) :
    standIn (r :: rest) v = r.nodes := by
  rw [standIn, List.find?_cons_of_pos (p := fun r : Replacement => v.same r.target) h]

theorem standIn_cons_other {r : Replacement} {v : Value} (rest : List Replacement) (h : v.same r.target = false) :
    standIn (r :: rest) v = standIn rest v := by
  rw [standIn, List.find?_cons_of_neg (p := fun r : Replacement => v.same r.target) (by simp [h]), standIn]

/-- Nothing is replaced in a list without any of the statements. -/
theorem replaceAll_of_none {rs : List Replacement} {body : List Value}
    (h : ∀ v ∈ body, ∀ r ∈ rs, v.same r.target = false) : replaceAll rs body = body := by
  induction body with
  | nil => rfl
  | cons v rest ih =>
    obtain ⟨hv, hrest⟩ := List.forall_mem_cons.mp h
    rw [replaceAll, List.flatMap_cons, standIn_of_none hv]
    exact congrArg (v :: ·) (ih hrest)

theorem replaceAll_cons_other {r : Replacement} {body : List Value} (rest : List Replacement)
    (h : ∀ v ∈ body, v.same r.target = false) : replaceAll (r :: rest) body = replaceAll rest body :=
  List.flatMap_congr fun v hv => standIn_cons_other rest (h v hv)

/-! ## One request -/

/-- A statement that stands in a list once is found there, with nothing like it before or after. -/
theorem locate_of_count {target : Value} {body : List Value} (h : body.countP (·.same target) = 1) :
    ∃ before v after, body = before ++ v :: after ∧ v.same target = true ∧
      (∀ x ∈ before, x.same target = false) ∧ (∀ x ∈ after, x.same target = false) ∧
      locate target body = some (before, after) := by
  induction body with
  | nil => cases h
  | cons x rest ih =>
    by_cases hx : x.same target = true
    · rw [List.countP_cons_of_pos (p := fun y : Value => y.same target) hx] at h
      have hnone : ∀ y ∈ rest, y.same target = false := fun y hy => by
        simpa using List.countP_eq_zero.mp (Nat.succ.inj h) y hy
      refine ⟨[], x, rest, rfl, hx, fun y hy => absurd hy List.not_mem_nil, hnone, ?_⟩
      rw [locate, if_pos hx]
    · rw [List.countP_cons_of_neg (p := fun y : Value => y.same target) hx] at h
      obtain ⟨before, v, after, rfl, hv, hbefore, hafter, hlocate⟩ := ih h
      refine ⟨x :: before, v, after, rfl, hv, List.forall_mem_cons.mpr ⟨by simpa using hx, hbefore⟩, hafter, ?_⟩
      rw [locate, if_neg hx, hlocate]
      rfl

/-- A statement that does not stand in a list is not found. -/
theorem locate_of_none {target : Value} {body : List Value} (h : ∀ x ∈ body, x.same target = false) :
    locate target body = none := by
  induction body with
  | nil => rfl
  | cons x rest ih =>
    obtain ⟨hx, hrest⟩ := List.forall_mem_cons.mp h
    rw [locate, if_neg (by rw [hx]; exact Bool.false_ne_true), ih hrest]
    rfl

theorem standsAt_append {target v : Value} {before after : List Value} (hv : v.same target = true)
    (hbefore : ∀ x ∈ before, x.same target = false) (hafter : ∀ x ∈ after, x.same target = false) :
    StandsAt target before.length (before ++ v :: after) := by
  intro i
  constructor
  · rintro ⟨x, hx, hsame⟩
    rcases Nat.lt_trichotomy i before.length with hi | rfl | hi
    · rw [List.getElem?_append_left hi] at hx
      rw [hbefore x (List.mem_of_getElem? hx)] at hsame
      cases hsame
    · rfl
    · obtain ⟨k, rfl⟩ : ∃ k, i = before.length + (k + 1) := ⟨i - before.length - 1, by omega⟩
      rw [List.getElem?_append_right (by omega), Nat.add_sub_cancel_left, List.getElem?_cons_succ] at hx
      rw [hafter x (List.mem_of_getElem? hx)] at hsame
      cases hsame
  · rintro rfl
    exact ⟨v, by simp, hv⟩

/-- What holds before each request of a list of requests: every statement is an object that stands in the list once,
no two requests are for one statement, and no new node is a statement that is to be replaced. -/
structure Pending (rs : List Replacement) (body : List Value) : Prop where
  objects : ∀ r ∈ rs, r.target.isObject = true
  once : ∀ r ∈ rs, body.countP (·.same r.target) = 1
  distinct : (rs.map (·.target.mark)).Nodup
  fresh : ∀ r ∈ rs, ∀ n ∈ r.nodes, ∀ r' ∈ rs, n.same r'.target = false

/-- **One request** finds its statement and puts its nodes there. The other requests are still pending, and the list
that they are to come to is the same as before. -/
theorem Pending.apply {r : Replacement} {rest : List Replacement} {body : List Value} (h : Pending (r :: rest) body) :
    ∃ position body', r.apply body = .ok (position, body') ∧ StandsAt r.target position body ∧ Pending rest body' ∧
      replaceAll rest body' = replaceAll (r :: rest) body := by
  obtain ⟨before, v, after, rfl, hv, hbefore, hafter, hlocate⟩ := locate_of_count (h.once r List.mem_cons_self)
  have hfresh := h.fresh r List.mem_cons_self
  -- the statement that was found is that of no other request
  have hother : ∀ r' ∈ rest, v.same r'.target = false := by
    intro r' hr'
    apply Bool.eq_false_iff.mpr
    intro hsame
    have hmark := ((same_iff (h.objects r List.mem_cons_self)).mp hv).2.1
    have hmark' := ((same_iff (h.objects r' (List.mem_cons_of_mem _ hr'))).mp hsame).2.1
    exact (List.nodup_cons.mp h.distinct).1 (List.mem_map.mpr ⟨r', hr', hmark'.symm.trans hmark⟩)
  refine ⟨before.length, before ++ r.nodes ++ after, ?_, standsAt_append hv hbefore hafter, ⟨?_, ?_, ?_, ?_⟩, ?_⟩
  · rw [Replacement.apply, Replacement.split, hlocate]
  · exact fun r' hr' => h.objects r' (List.mem_cons_of_mem _ hr')
  · intro r' hr'
    have hmem : r' ∈ r :: rest := List.mem_cons_of_mem _ hr'
    have hnodes : r.nodes.countP (·.same r'.target) = 0 :=
      List.countP_eq_zero.mpr fun n hn => by rw [hfresh n hn r' hmem]; exact Bool.false_ne_true
    have honce := h.once r' hmem
    rw [List.countP_append, List.countP_cons_of_neg (by rw [hother r' hr']; exact Bool.false_ne_true)] at honce
    rw [List.countP_append, List.countP_append, hnodes]
    omega
  · exact (List.nodup_cons.mp h.distinct).2
  · exact fun r' hr' n hn r'' hr'' =>
      h.fresh r' (List.mem_cons_of_mem _ hr') n hn r'' (List.mem_cons_of_mem _ hr'')
  · have hnodes : replaceAll rest r.nodes = r.nodes :=
      replaceAll_of_none fun n hn r' hr' => hfresh n hn r' (List.mem_cons_of_mem _ hr')
    calc replaceAll rest (before ++ r.nodes ++ after)
        = replaceAll rest before ++ replaceAll rest r.nodes ++ replaceAll rest after := by
          simp only [replaceAll, List.flatMap_append]
      _ = replaceAll (r :: rest) before ++ (standIn (r :: rest) v ++ replaceAll (r :: rest) after) := by
          rw [hnodes, standIn_cons_self rest hv, replaceAll_cons_other rest hbefore, replaceAll_cons_other rest hafter,
            List.append_assoc]
      _ = replaceAll (r :: rest) (before ++ v :: after) := by
          simp only [replaceAll, List.flatMap_append, List.flatMap_cons]

/-! ## All requests -/

theorem applyAll_cons_ok {r : Replacement} {body body' : List Value} {position : Nat} (rest : List Replacement)
    (h : r.apply body = .ok (position, body')) :
    applyAll (r :: rest) body = (.ok position :: (applyAll rest body').1, (applyAll rest body').2) := by
  rw [applyAll, h]

theorem applyAll_append (rs rs' : List Replacement) (body : List Value) :
    applyAll (rs ++ rs') body = ((applyAll rs body).1 ++ (applyAll rs' (applyAll rs body).2).1,
      (applyAll rs' (applyAll rs body).2).2) := by
  induction rs generalizing body with
  | nil => rfl
  | cons r rest ih =>
    rw [List.cons_append, applyAll, applyAll]
    cases r.apply body with
    | ok answer => simp only [ih, List.cons_append]
    | error fault => simp only [ih, List.cons_append]

/-- Requests one after another come to the list with all of them carried out. -/
theorem Pending.applyAll_eq {rs : List Replacement} {body : List Value} (h : Pending rs body) :
    (applyAll rs body).2 = replaceAll rs body := by
  induction rs generalizing body with
  | nil => exact (replaceAll_of_none fun _ _ r hr => absurd hr List.not_mem_nil).symm
  | cons r rest ih =>
    obtain ⟨position, body', happly, _, hrest, hsame⟩ := h.apply
    rw [applyAll_cons_ok rest happly, ih hrest, hsame]

/-- Each request answers with the place of its statement in the list as it is at that moment. -/
theorem Pending.answer {done todo : List Replacement} {r : Replacement} {body : List Value}
    (h : Pending (done ++ r :: todo) body) :
    ∃ position, (applyAll (done ++ r :: todo) body).1[done.length]? = some (.ok position) ∧
      StandsAt r.target position (applyAll done body).2 := by
  induction done generalizing body with
  | nil =>
    obtain ⟨position, body', happly, hstands, _, _⟩ := h.apply
    refine ⟨position, ?_, hstands⟩
    rw [List.nil_append, applyAll_cons_ok todo happly]
    rfl
  | cons r' done ih =>
    obtain ⟨_, body', happly, _, hrest, _⟩ := Pending.apply h
    obtain ⟨position, hanswer, hstands⟩ := ih hrest
    refine ⟨position, ?_, ?_⟩
    · rw [List.cons_append, applyAll_cons_ok _ happly]
      exact hanswer
    · rw [applyAll_cons_ok _ happly]
      exact hstands

/-- Afterwards none of the statements is there any more. -/
theorem Pending.gone {rs : List Replacement} {body : List Value} (h : Pending rs body) {r : Replacement} (hr : r ∈ rs) :
    ∀ x ∈ replaceAll rs body, x.same r.target = false := by
  intro x hx
  obtain ⟨v, _, hx⟩ := List.mem_flatMap.mp hx
  rw [standIn] at hx
  split at hx
  · rename_i r' hfound
    exact h.fresh r' (List.mem_of_find?_eq_some hfound) x hx r hr
  · rename_i hnone
    rw [List.mem_singleton.mp hx]
    simpa using List.find?_eq_none.mp hnone r hr

/-- A request whose statement is not in the list fails, and says so. -/
theorem apply_of_none {r : Replacement} {body : List Value} (h : ∀ x ∈ body, x.same r.target = false) :
    r.apply body = .error (absent r.target) := by
  rw [apply, split, locate_of_none h]

/-! ## The order of requests -/

/-- Where only one item of a list can pass a test, the order of the list does not matter. -/
theorem find?_perm {α : Type} {p : α → Bool} {xs ys : List α} (hperm : xs.Perm ys)
    (hunique : ∀ a ∈ xs, ∀ b ∈ xs, p a = true → p b = true → a = b) : xs.find? p = ys.find? p := by
  cases hy : ys.find? p with
  | none =>
    apply List.find?_eq_none.mpr
    intro a ha
    exact List.find?_eq_none.mp hy a (hperm.mem_iff.mp ha)
  | some b =>
    have hb : p b = true := List.find?_some hy
    have hmem : b ∈ xs := hperm.mem_iff.mpr (List.mem_of_find?_eq_some hy)
    obtain ⟨a, ha⟩ := Option.isSome_iff_exists.mp (List.find?_isSome.mpr ⟨b, hmem, hb⟩)
    rw [ha, hunique a (List.mem_of_find?_eq_some ha) b hmem (List.find?_some ha) hb]

theorem Pending.perm {rs order : List Replacement} {body : List Value} (h : Pending rs body) (horder : order.Perm rs) :
    Pending order body where
  objects r hr := h.objects r (horder.mem_iff.mp hr)
  once r hr := h.once r (horder.mem_iff.mp hr)
  distinct := (horder.map _).nodup_iff.mpr h.distinct
  fresh r hr n hn r' hr' := h.fresh r (horder.mem_iff.mp hr) n hn r' (horder.mem_iff.mp hr')

/-- All requests at once come to one list in any order. -/
theorem Pending.replaceAll_perm {rs order : List Replacement} {body : List Value} (h : Pending rs body)
    (horder : order.Perm rs) : replaceAll order body = replaceAll rs body := by
  apply List.flatMap_congr
  intro v _
  unfold standIn
  rw [find?_perm horder.symm ?_]
  intro a ha b hb hva hvb
  -- a statement has one mark, and there is one request for it
  have hmark := ((same_iff (h.objects a ha)).mp hva).2.1
  have hmark' := ((same_iff (h.objects b hb)).mp hvb).2.1
  exact List.inj_on_of_nodup_map h.distinct ha hb (hmark.symm.trans hmark')

/-! ## Distinct statements -/

/-- Requests for different statements of a list of distinct objects, none of whose nodes is one of these statements. -/
structure Independent (rs : List Replacement) (body : List Value) : Prop where
  objects : ∀ v ∈ body, v.isObject = true ∧ v.mark ≠ 0
  distinct : body.Pairwise fun v w => v.same w = false
  present : ∀ r ∈ rs, ∃ v ∈ body, v.same r.target = true
  different : rs.Pairwise fun r r' => r.target.same r'.target = false
  fresh : ∀ r ∈ rs, ∀ n ∈ r.nodes, ∀ r' ∈ rs, n.same r'.target = false

/-- Distinct objects have distinct marks. -/
theorem nodup_marks {vs : List Value} (hvs : ∀ v ∈ vs, v.isObject = true ∧ v.mark ≠ 0)
    (h : vs.Pairwise fun v w => v.same w = false) : (vs.map mark).Nodup := by
  apply List.pairwise_map.mpr
  refine List.Pairwise.imp_of_mem ?_ h
  intro v w hv hw hne hmark
  have hsame := (same_iff (hvs w hw).1).mpr ⟨(hvs v hv).1, hmark, (hvs w hw).2⟩
  rw [hne] at hsame
  cases hsame

theorem isObject_of_same {v w : Value} (hv : v.isObject = true) (h : v.same w = true) : w.isObject = true := by
  cases v with
  | object m fs =>
    cases w with
    | object k gs => rfl
    | _ => cases h
  | _ => cases hv

theorem Independent.pending {rs : List Replacement} {body : List Value} (h : Independent rs body) :
    Pending rs body := by
  have htargets : ∀ r ∈ rs, r.target.isObject = true ∧ r.target.mark ≠ 0 := by
    intro r hr
    obtain ⟨v, hv, hsame⟩ := h.present r hr
    have hobject := isObject_of_same (h.objects v hv).1 hsame
    exact ⟨hobject, ((same_iff hobject).mp hsame).2.2⟩
  refine ⟨fun r hr => (htargets r hr).1, fun r hr => ?_, ?_, h.fresh⟩
  · obtain ⟨hobject, hmark⟩ := htargets r hr
    obtain ⟨v, hv, hsame⟩ := h.present r hr
    have hcount : body.countP (·.same r.target) = (body.map mark).count r.target.mark := by
      rw [List.count, List.countP_map]
      apply List.countP_congr
      intro w hw
      rw [same_iff hobject]
      simp [(h.objects w hw).1, hmark]
    rw [hcount]
    apply List.count_eq_one_of_mem (nodup_marks h.objects h.distinct)
    exact List.mem_map.mpr ⟨v, hv, ((same_iff hobject).mp hsame).2.1⟩
  · have hmarks : ((rs.map (·.target)).map mark).Nodup :=
      nodup_marks (by simpa using htargets) (List.pairwise_map.mpr h.different)
    rwa [List.map_map] at hmarks

/-- **Independent replacements commute.** In whatever order the requests are made, each finds its statement where it
stands at that moment, and the list in the end is the one with every statement replaced in its place; statements that
no request is for stay, whatever they look like. A request that is made once more fails, and leaves the list alone. -/
theorem applyAll_commutes {rs order : List Replacement} {body : List Value} (h : Independent rs body)
    (horder : order.Perm rs) :
    (∀ done r todo, order = done ++ r :: todo →
      ∃ position, (applyAll order body).1[done.length]? = some (.ok position) ∧
        StandsAt r.target position (applyAll done body).2) ∧
      (applyAll order body).2 = replaceAll rs body ∧
      (∀ v ∈ body, (∀ r ∈ rs, v.same r.target = false) → v ∈ (applyAll order body).2) ∧
      ∀ r ∈ rs, applyAll (order ++ [r]) body =
        ((applyAll order body).1 ++ [.error (if (r.target.at "type").isWritable
          then .notInBody (r.target.at "type").shown else .tooLong)], (applyAll order body).2) := by
  have hpending := h.pending
  have hfinal : (applyAll order body).2 = replaceAll rs body := by
    rw [(hpending.perm horder).applyAll_eq, hpending.replaceAll_perm horder]
  refine ⟨?_, hfinal, ?_, ?_⟩
  · rintro done r todo rfl
    exact (hpending.perm horder).answer
  · intro v hv hother
    rw [hfinal]
    refine List.mem_flatMap.mpr ⟨v, hv, ?_⟩
    rw [standIn_of_none hother]
    exact List.mem_singleton_self v
  · intro r hr
    have hfails := apply_of_none (hpending.gone hr)
    rw [absent_object (hpending.objects r hr)] at hfails
    rw [applyAll_append, hfinal, applyAll, hfails]
    rfl

/-- One of several statements that look the same; only the mark tells them apart. -/
def Sample.twin (mark : Nat) : Value := .object mark [("type", .text "EmptyStatement")]

/-- Three such statements. -/
def Sample.twins : List Value := [Sample.twin 1, Sample.twin 2, Sample.twin 3]

/-- Takes the first of them away. -/
def Sample.removal : Replacement := ⟨Sample.twin 1, []⟩

/-- Puts a new statement and the second one in place of the third. -/
def Sample.widening : Replacement := ⟨Sample.twin 3, [Sample.twin 4, Sample.twin 2]⟩

theorem applyAll_commutes_twins :
    Independent [Sample.removal, Sample.widening] Sample.twins ∧
      replaceAll [Sample.removal, Sample.widening] Sample.twins = [Sample.twin 2, Sample.twin 4, Sample.twin 2] ∧
      (∀ done r todo, [Sample.widening, Sample.removal] = done ++ r :: todo →
        ∃ position, (applyAll [Sample.widening, Sample.removal] Sample.twins).1[done.length]? = some (.ok position) ∧
          StandsAt r.target position (applyAll done Sample.twins).2) ∧
      (applyAll [Sample.widening, Sample.removal] Sample.twins).2
        = replaceAll [Sample.removal, Sample.widening] Sample.twins ∧
      Sample.twin 2 ∈ (applyAll [Sample.widening, Sample.removal] Sample.twins).2 ∧
      applyAll [Sample.widening, Sample.removal, Sample.widening] Sample.twins
        = ((applyAll [Sample.widening, Sample.removal] Sample.twins).1 ++ [.error (.notInBody "EmptyStatement")],
          (applyAll [Sample.widening, Sample.removal] Sample.twins).2) := by
  have h : Independent [Sample.removal, Sample.widening] Sample.twins :=
    ⟨by decide, by decide, by decide, by decide, by decide⟩
  obtain ⟨hanswers, hfinal, hkept, hagain⟩ := applyAll_commutes h (.swap Sample.removal Sample.widening [])
  refine ⟨h, rfl, hanswers, hfinal, hkept _ (List.mem_cons_of_mem _ List.mem_cons_self) (by decide), ?_⟩
  exact hagain Sample.widening (List.mem_cons_of_mem _ List.mem_cons_self)

end Replacement
end EsmLift
