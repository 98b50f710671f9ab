import EsmLift.Proofs.Tiers

/-!
# `Proofs.Budget` — rewrites are counted

A **rewrite** is an answer other than to keep the node. Here is what a walk does if its rewrites are counted and its
visitor is modest: what it puts in is made of new nodes and of what is at hand, which is the visited node and the items
beside it. Then every question either changes nothing at all, or there is one rewrite more, and nothing gets inside
itself. A visitor that never makes more rewrites than a limit can be held to this limit, and the walk is the same; so
the limit need not be watched while a walk is followed.

## Contents

* `Visitor.tallied`, `Visitor.rewrites`: the number of rewrites of a walk;
* `Answer.Modest`, `Visitor.Modest`: what is put in is made of what is at hand;
* `Visitor.rationed`, `walk_rationed`: a visitor that is held to a limit;
* `Visitor.Asked`, `Visitor.Modest.asked`: one question;
* `Carried`, `Ended`: what a part of the walk leaves behind; `Carried.exists_stamp`: new nodes;
* `Replacement.split_cases`: a splice has a place in its list, or it is refused.
-/

namespace EsmLift

open Value

variable {σ : Type}

/-! ## Visitors -/

/-- One for an answer that changes something. -/
def Answer.weight : Answer → Nat
  | .keep => 0
  | _ => 1

/-- The visitor that also counts the answers that change something. -/
def Visitor.tallied (V : Visitor σ) : Visitor (σ × Nat) where
  enter v owner m :=
    match V.enter v owner m.1 with
    | (.ok answer, memory) => (.ok answer, memory, m.2 + answer.weight)
    | (.error fault, memory) => (.error fault, memory, m.2)

/-- The number of answers of a walk that change something. -/
def Visitor.rewrites (V : Visitor σ) (fuel : Nat) (tree : Value) (m : σ) : Nat :=
  (walk V.tallied fuel tree (m, 0)).memory.2

/-- A visitor whose answers are counted goes the same way. -/
theorem walk_tallied (V : Visitor σ) (fuel : Nat) (tree : Value) (m : σ) :
    walk V fuel tree m = (walk V.tallied fuel tree (m, 0)).map Prod.fst := by
  refine walk_map (f := Prod.fst) (W := V.tallied) (fun v owner m => ?_) fuel tree (m, 0)
  rw [Visitor.tallied]
  dsimp only
  rcases V.enter v owner m.1 with ⟨fault | answer, memory⟩ <;> rfl

/-- The items `xs` of a list in a field of the owner, one of which is `v`. -/
def Siblings (owner : Option Value) (v : Value) (xs : List Value) : Prop :=
  v ∈ xs ∧ ∃ m fs key k, owner = some (.object m fs) ∧ (key, .list k xs) ∈ fs

/-- An object made of new objects and lists, and of old ones of a given kind. -/
def Value.MadeOf (old : Value → Prop) (n : Value) : Prop :=
  n.isObject = true ∧ ∀ c ∈ n.compounds, c.mark = 0 ∨ old c

/-- The answer keeps the node, or puts in objects that are made of new ones and of what is at hand. That is the node
itself with what is in it; and for the place of an item of a list, all the items. What is to be replaced in a list is an
object, in the list or not, or anything that is in the list. -/
inductive Answer.Modest (v : Value) (owner : Option Value) : Answer → Prop
  | keep : Modest v owner .keep
  | node {n : Value} (h : n.MadeOf (· ∈ v.compounds)) : Modest v owner (.node n)
  | splice {r : Replacement}
      (hnodes : ∀ n ∈ r.nodes, n.MadeOf fun c => ∀ xs, Siblings owner v xs → c ∈ compoundsItems xs)
      (htarget : r.target.isObject = true ∨
        r.target.isTuple = false ∧ ∀ xs, Siblings owner v xs → ∃ x ∈ xs, x.same r.target = true) :
      Modest v owner (.splice r)

/-- The visitor answers every question about an object modestly, and never fails. -/
def Visitor.Modest (V : Visitor σ) : Prop :=
  ∀ v owner m, v.isObject = true → ∃ answer m', V.enter v owner m = (.ok answer, m') ∧ answer.Modest v owner

/-- Whether statements were to be put where they have no place. A statement that is not in its list is named by its
type, and a type may be too long to be written. -/
def Fault.misplaced : Fault → Bool
  | .rootSplice | .fieldSplice _ | .notInBody _ | .tooLong => true
  | _ => false

/-- The visitor that counts and that rewrites as long as the limit allows; from there on it keeps every node. -/
def Visitor.rationed (V : Visitor σ) (limit : Nat) : Visitor (σ × Nat) where
  enter v owner m :=
    if (V.tallied.enter v owner m).2.2 ≤ limit then V.tallied.enter v owner m else (.ok .keep, m)

/-- Up to the limit nothing is held back. -/
theorem Visitor.agree_rationed (V : Visitor σ) (limit : Nat) :
    Visitor.AgreeUpTo (fun m => m.2 ≤ limit) (V.rationed limit) V.tallied := by
  intro v owner m hle
  refine ⟨?_, if_pos hle⟩
  unfold Visitor.tallied at hle
  dsimp only at hle
  rcases henter : V.enter v owner m.1 with ⟨fault | answer, memory⟩ <;> rw [henter] at hle
  · exact hle
  · exact (Nat.le_add_right ..).trans hle

/-- A visitor whose rewrites stay within the limit goes the same way as the one that is held to it. -/
theorem walk_rationed (V : Visitor σ) {fuel limit : Nat} {tree : Value} {m : σ}
    (h : V.rewrites fuel tree m ≤ limit) :
    walk V fuel tree m = (walk (V.rationed limit) fuel tree (m, 0)).map Prod.fst := by
  rw [walk_tallied, walk_agree (V.agree_rationed limit) fuel tree (m, 0) h]

/-- A question after which the node is kept. -/
structure Trail.Kept (t t' : Trail (σ × Nat)) : Prop where
  next : t'.next = t.next
  revisions : t'.revisions = t.revisions
  count : t'.memory.2 = t.memory.2

/-- A question after which there is one rewrite more, and still not too many; `next` is the next free mark. -/
structure Trail.Spent (limit : Nat) (t : Trail (σ × Nat)) (next : Nat) (t' : Trail (σ × Nat)) : Prop where
  next : t'.next = next
  revisions : t'.revisions = t.revisions
  count : t'.memory.2 = t.memory.2 + 1
  within : t'.memory.2 ≤ limit

theorem Trail.Spent.lt {limit next : Nat} {t t' : Trail (σ × Nat)} (h : t.Spent limit next t') :
    t.memory.2 < t'.memory.2 := by
  rw [h.count]
  exact Nat.lt_succ_self _

/-- **All that can happen at one node** if the visitor is modest and held to a limit. -/
inductive Visitor.Asked (V : Visitor σ) (limit : Nat) (v : Value) (owner : Option Value) (t : Trail (σ × Nat)) : Prop
  | keep {t' : Trail (σ × Nat)} (hask : (V.rationed limit).ask v owner t = (.ok .keep, t')) (h : t.Kept t')
  | node {x : Value} {t' : Trail (σ × Nat)}
      (hask : (V.rationed limit).ask v owner t = (.ok (.node (x.stamp t.next).1), t'))
      (hx : x.MadeOf (· ∈ v.compounds)) (h : t.Spent limit (x.stamp t.next).2 t')
  | splice {r : Replacement} {t' : Trail (σ × Nat)}
      (hask : (V.rationed limit).ask v owner t
        = (.ok (.splice ⟨(r.target.stamp t.next).1, (stampItems (r.target.stamp t.next).2 r.nodes).1⟩), t'))
      (hr : Answer.Modest v owner (.splice r)) (h : t.Spent limit (stampItems (r.target.stamp t.next).2 r.nodes).2 t')

theorem Visitor.Modest.asked {V : Visitor σ} (hV : V.Modest) (limit : Nat) {v : Value} (hv : v.isObject = true)
    (owner : Option Value) (t : Trail (σ × Nat)) : V.Asked limit v owner t := by
  obtain ⟨answer, m', henter, hmodest⟩ := hV v owner t.memory.1 hv
  have htallied : V.tallied.enter v owner t.memory = (.ok answer, m', t.memory.2 + answer.weight) := by
    unfold Visitor.tallied
    dsimp only
    rw [henter]
  by_cases hle : t.memory.2 + answer.weight ≤ limit
  · have hask : (V.rationed limit).ask v owner t
        = (.ok (answer.stamp t.next).1, ⟨(m', t.memory.2 + answer.weight), (answer.stamp t.next).2, t.revisions⟩) := by
      unfold Visitor.ask Visitor.rationed
      dsimp only
      rw [htallied, if_pos hle]
    cases hmodest with
    | keep => exact .keep hask ⟨rfl, rfl, rfl⟩
    | node hx => exact .node hask hx ⟨rfl, rfl, rfl, hle⟩
    | splice hnodes htarget => exact .splice hask (.splice hnodes htarget) ⟨rfl, rfl, rfl, hle⟩
  · have hask : (V.rationed limit).ask v owner t = (.ok .keep, t) := by
      unfold Visitor.ask Visitor.rationed
      dsimp only
      rw [htallied, if_neg hle]
      rfl
    exact .keep hask ⟨rfl, rfl, rfl⟩

/-! ## What a part of the walk leaves behind -/

variable {α β : Type}

/-- The trail can be walked on, and there are not too many rewrites yet. -/
structure Trail.Solvent (limit : Nat) (T : Nat → Tier) (t : Trail (σ × Nat)) : Prop where
  tiered : t.Tiered T
  within : t.memory.2 ≤ limit

/-- The walk came from trail `t` to trail `t'`: the marks in use keep their tiers, and without a rewrite nothing is
edited. -/
structure Carried (limit : Nat) (T : Nat → Tier) (t : Trail (σ × Nat)) (T' : Nat → Tier) (t' : Trail (σ × Nat)) :
    Prop where
  tiers : ∀ k < t.next, T' k = T k
  next_le : t.next ≤ t'.next
  solvent : t'.Solvent limit T'
  count_le : t.memory.2 ≤ t'.memory.2
  same : t'.memory.2 = t.memory.2 → t'.revisions = t.revisions

/-- The walk through a part is over. It was stopped because statements had no place; or the values that stand there now
are held like those that stood there before, and without a rewrite nothing is new among them. -/
structure Ended (limit : Nat) (parts : α → List Value) (T : Nat → Tier) (t : Trail (σ × Nat)) (bound : ℚ)
    (w : Walked (σ × Nat) α) : Prop where
  stopped : ∀ fault, w.fault = some fault → fault.misplaced = true
  passed : w.fault = none → ∃ T', Carried limit T t T' w.trail ∧
    (∀ x ∈ parts w.value, x.Held T' w.trail.next bound) ∧ (w.trail.memory.2 = t.memory.2 → w.edited = false)

variable {limit : Nat}

namespace Carried

variable {T T' T'' : Nat → Tier} {t t' t'' : Trail (σ × Nat)} {bound : ℚ} {v : Value}

theorem refl (h : t.Solvent limit T) : Carried limit T t T t :=
  ⟨fun _ _ => rfl, Nat.le_refl _, h, Nat.le_refl _, fun _ => rfl⟩

theorem trans (h : Carried limit T t T' t') (h' : Carried limit T' t' T'' t'') : Carried limit T t T'' t'' where
  tiers k hk := (h'.tiers k (hk.trans_le h.next_le)).trans (h.tiers k hk)
  next_le := h.next_le.trans h'.next_le
  solvent := h'.solvent
  count_le := h.count_le.trans h'.count_le
  same heq := by
    have hle := h.count_le
    have hle' := h'.count_le
    rw [h'.same (by omega), h.same (by omega)]

theorem held (h : Carried limit T t T' t') (hv : v.Held T t.next bound) : v.Held T' t'.next bound :=
  hv.later h.tiers h.next_le

/-- A question that is answered by keeping the node. -/
theorem kept (h : t.Solvent limit T) (hkept : t.Kept t') : Carried limit T t T t' where
  tiers _ _ := rfl
  next_le := hkept.next.ge
  solvent := ⟨h.tiered.later (fun _ _ => rfl) hkept.revisions hkept.next.ge, hkept.count ▸ h.within⟩
  count_le := hkept.count.ge
  same _ := hkept.revisions

/-- Something was edited, after a rewrite. -/
theorem edited (h : Carried limit T t T' t') (hlt : t.memory.2 < t'.memory.2) (hmemory : t''.memory = t'.memory)
    (hnext : t''.next = t'.next) (htiered : t''.Tiered T') : Carried limit T t T' t'' where
  tiers := h.tiers
  next_le := hnext ▸ h.next_le
  solvent := ⟨htiered, hmemory ▸ h.solvent.within⟩
  count_le := hmemory ▸ h.count_le
  same heq := absurd (hmemory ▸ heq) (Nat.ne_of_gt hlt)

/-- **New nodes.** An answer puts in nodes that are made of new objects and lists and of what is in the values `xs`;
these nodes are held where those values are. -/
theorem exists_stamp {xs ns : List Value} {next : Nat} (h : t.Solvent limit T)
    (hxs : ∀ x ∈ xs, x.Held T t.next bound) (hns : ∀ c ∈ compoundsItems ns, c.mark = 0 ∨ c ∈ compoundsItems xs)
    (hle : t.next ≤ next) (hspent : t.Spent limit (stampItems next ns).2 t') :
    ∃ T', Carried limit T t T' t' ∧ ∀ y ∈ (stampItems next ns).1, y.Held T' t'.next bound := by
  obtain ⟨low, hlow, hxs⟩ := exists_room xs fun x hx => (hxs x hx).exists_low
  have hold : ∀ c ∈ compoundsItems ns, c.mark = 0 ∨ c.Held T next low := by
    intro c hc
    refine (hns c hc).imp id fun hin => ?_
    rw [compoundsItems_eq] at hin
    obtain ⟨x, hx, hin⟩ := List.mem_flatMap.mp hin
    exact ((hxs x hx).of_mem hin).later (fun _ _ => rfl) hle
  obtain ⟨T', hT, hheld⟩ := exists_held_stampItems hlow (h.tiered.sound.pos.trans_le hle) ns hold
  have htiers : ∀ k < t.next, T' k = T k := fun k hk => hT k (hk.trans_le hle)
  have hgrown : t.next ≤ t'.next := hspent.next ▸ hle.trans (count_marks_stampItems Nat.one_pos next ns).1
  have hcount := hspent.count
  refine ⟨T', ⟨htiers, hgrown, ⟨h.tiered.later htiers hspent.revisions hgrown, hspent.within⟩, by omega,
    fun heq => by omega⟩, ?_⟩
  rw [hspent.next]
  exact hheld

/-- The node of an answer finds its place where the visited node was. -/
theorem exists_node {x : Value} (h : t.Solvent limit T) (hv : v.Held T t.next bound) (hx : x.MadeOf (· ∈ v.compounds))
    (hspent : t.Spent limit (x.stamp t.next).2 t') :
    ∃ T', Carried limit T t T' t' ∧ (x.stamp t.next).1.Held T' t'.next bound := by
  have hmade : ∀ c ∈ compoundsItems [x], c.mark = 0 ∨ c ∈ compoundsItems [v] := by
    intro c hc
    rw [compoundsItems, compoundsItems, List.append_nil] at hc ⊢
    exact hx.2 c hc
  obtain ⟨T', hcarried, hheld⟩ := exists_stamp h (List.forall_mem_singleton.mpr hv) hmade (Nat.le_refl _) hspent
  exact ⟨T', hcarried, hheld _ List.mem_cons_self⟩

end Carried

namespace Ended

variable {parts : α → List Value} {T T' : Nat → Tier} {t t' : Trail (σ × Nat)} {bound : ℚ} {w : Walked (σ × Nat) α}

/-- A fault. -/
theorem stop {fault : Fault} (hfault : w.fault = some fault) (h : fault.misplaced = true) :
    Ended limit parts T t bound w where
  stopped fault' hfault' := by
    rw [hfault] at hfault'
    cases hfault'
    exact h
  passed hnone := by
    rw [hfault] at hnone
    cases hnone

/-- The values stay as they are. -/
theorem idle (h : t.Solvent limit T) (hparts : ∀ x ∈ parts w.value, x.Held T t.next bound) (hedited : w.edited = false)
    (hfault : w.fault = none) (htrail : w.trail = t) : Ended limit parts T t bound w where
  stopped fault hfault' := by
    rw [hfault] at hfault'
    cases hfault'
  passed _ := by
    rw [htrail]
    exact ⟨T, .refl h, hparts, fun _ => hedited⟩

/-- The walk through a part, with what went before it. -/
theorem after {parts' : β → List Value} {w' : Walked (σ × Nat) β} (h : Ended limit parts T' t' bound w)
    (hcarried : Carried limit T t T' t') (hfault : w'.fault = w.fault) (htrail : w'.trail = w.trail)
    (hparts : ∀ x ∈ parts' w'.value, x ∈ parts w.value ∨ x.Held T' t'.next bound)
    (hedited : t'.memory.2 = t.memory.2 → w.edited = false → w'.edited = false) :
    Ended limit parts' T t bound w' where
  stopped fault hstop := h.stopped fault (hfault ▸ hstop)
  passed hnone := by
    obtain ⟨T'', hcarried', hheld, hidle⟩ := h.passed (hfault ▸ hnone)
    rw [htrail]
    refine ⟨T'', hcarried.trans hcarried', fun x hx => ?_, fun heq => ?_⟩
    · exact (hparts x hx).elim (hheld x) hcarried'.held
    · have hle := hcarried.count_le
      have hle' := hcarried'.count_le
      exact hedited (by omega) (hidle (by omega))

/-- An object or list `v` whose parts were walked through, and which is recorded if they were edited. -/
theorem whole {m : Nat} {v : Value} {recorded : Trail (σ × Nat)} (h : Ended limit parts T t (T m).height w)
    (hlt : m < t.next) (hmemory : recorded.memory = w.trail.memory) (hnext : recorded.next = w.trail.next)
    (hv : ∀ T', T' m = T m → m < w.trail.next → w.trail.Tiered T' →
      (∀ x ∈ parts w.value, x.Held T' w.trail.next (T' m).height) →
      v.Held T' w.trail.next bound ∧ recorded.Tiered T') :
    Ended limit (fun v => [v]) T t bound ⟨v, false, w.fault, if w.edited then recorded else w.trail⟩ where
  stopped := h.stopped
  passed hnone := by
    obtain ⟨T', hcarried, hheld, hidle⟩ := h.passed hnone
    have htier := hcarried.tiers m hlt
    obtain ⟨hvalue, htiered⟩ := hv T' htier (hlt.trans_le hcarried.next_le) hcarried.solvent.tiered (htier ▸ hheld)
    cases hedit : w.edited with
    | false => exact ⟨T', hcarried, List.forall_mem_singleton.mpr hvalue, fun _ => rfl⟩
    | true =>
      have hne : t.memory.2 ≠ w.trail.memory.2 := fun heq => by
        rw [hidle heq.symm] at hedit
        cases hedit
      refine ⟨T', hcarried.edited (Nat.lt_of_le_of_ne hcarried.count_le hne) hmemory hnext htiered,
        List.forall_mem_singleton.mpr ?_, fun _ => rfl⟩
      exact hvalue.later (fun _ _ => rfl) hnext.ge

/-- An object whose fields were walked through. -/
theorem object {m : Nat} {w : Walked (σ × Nat) Fields} (h : Ended limit (fun fs => fs.map Prod.snd) T t (T m).height w)
    (hpos : 0 < m) (hlt : m < t.next) (hkind : (T m).object = true) (hlow : (T m).height < bound) :
    Ended limit (fun v => [v]) T t bound
      ⟨.object m w.value, false, w.fault, if w.edited then w.trail.recordObject m w.value else w.trail⟩ := by
  refine h.whole hlt rfl rfl fun T' htier hlt' htiered hheld => ?_
  rw [← htier] at hkind hlow
  have hfs := List.forall_mem_map.mp hheld
  exact ⟨.object hpos hlt' hkind hlow hfs, htiered.recordObject hpos hlt' hkind hfs⟩

/-- A list whose items were walked through. -/
theorem list {m : Nat} {w : Walked (σ × Nat) (List Value)} (h : Ended limit id T t (T m).height w)
    (hpos : 0 < m) (hlt : m < t.next) (hkind : (T m).object = false) (hlow : (T m).height < bound) :
    Ended limit (fun v => [v]) T t bound
      ⟨.list m w.value, false, w.fault, if w.edited then w.trail.recordList m w.value else w.trail⟩ := by
  refine h.whole hlt rfl rfl fun T' htier hlt' htiered hxs => ?_
  rw [← htier] at hkind hlow
  exact ⟨.list hpos hlt' hkind hlow hxs, htiered.recordList hpos hlt' hkind hxs⟩

end Ended

/-! ## Statements that have a place -/

/-- A statement is found in a list, or nothing like it is there. -/
theorem Replacement.locate_cases (target : Value) (body : List Value) :
    (∃ before x after, locate target body = some (before, after) ∧ body = before ++ x :: after) ∨
      locate target body = none ∧ ∀ x ∈ body, x.same target = false := by
  induction body with
  | nil => exact .inr ⟨rfl, nofun⟩
  | cons x rest ih =>
    rw [locate]
    by_cases hx : x.same target = true
    · rw [if_pos hx]
      exact .inl ⟨[], x, rest, rfl, rfl⟩
    · rw [if_neg hx]
      rcases ih with ⟨before, y, after, hlocate, rfl⟩ | ⟨hlocate, hnone⟩
      · exact .inl ⟨x :: before, y, after, by rw [hlocate]; rfl, rfl⟩
      · exact .inr ⟨by rw [hlocate]; rfl, List.forall_mem_cons.mpr ⟨by simpa using hx, hnone⟩⟩

/-- What is in use keeps its identity when new objects get their marks. -/
theorem Value.same_stamp {x v : Value} (next : Nat) (htuple : v.isTuple = false) (h : x.same v = true) :
    x.same (v.stamp next).1 = true := by
  cases v with
  | tuple xs => cases htuple
  | list m xs =>
    cases x with
    | list k ys =>
      have hm : m ≠ 0 := by
        rintro rfl
        simp [same] at h
      simp only [stamp, if_neg hm]
      exact h
    | _ => cases h
  | object m fs =>
    cases x with
    | object k gs =>
      have hm : m ≠ 0 := by
        rintro rfl
        simp [same] at h
      simp only [stamp, if_neg hm]
      exact h
    | _ => cases h
  | _ => exact h

/-- A modest request finds its place in the list, or it is refused because the statement is not there. -/
theorem Replacement.split_cases {target : Value} {xs : List Value} (nodes : List Value) (next : Nat)
    (htarget : target.isObject = true ∨ target.isTuple = false ∧ ∃ x ∈ xs, x.same target = true) :
    (∃ before after, split ⟨(target.stamp next).1, nodes⟩ xs = .ok (before, after) ∧ (∀ x ∈ before, x ∈ xs) ∧
      ∀ x ∈ after, x ∈ xs) ∨
    ∃ fault, split ⟨(target.stamp next).1, nodes⟩ xs = .error fault ∧ fault.misplaced = true := by
  unfold split
  rcases locate_cases (target.stamp next).1 xs with ⟨before, x, after, hlocate, rfl⟩ | ⟨hlocate, hnone⟩
  · rw [hlocate]
    refine .inl ⟨before, after, rfl, fun y hy => List.mem_append_left _ hy, fun y hy => ?_⟩
    exact List.mem_append_right _ (List.mem_cons_of_mem _ hy)
  · rw [hlocate]
    refine .inr ⟨_, rfl, ?_⟩
    rcases htarget with hobject | ⟨htuple, x, hx, hsame⟩
    · rw [← isObject_stamp next] at hobject
      rw [absent_object hobject]
      cases (((target.stamp next).1.get? "type").getD .null).isWritable <;> rfl
    · have hfound := same_stamp next htuple hsame
      rw [hnone x hx] at hfound
      cases hfound

end EsmLift
