import EsmLift.Proofs.Accounts
import EsmLift.Proofs.Legibility
import EsmLift.Proofs.Progress
import EsmLift.Proofs.Targets

/-!
# `Proofs.Ledger` — what the pass remembers of its replacements

The pass writes down each replacement when it asks for it, and goes on editing. So at the end the parts of a replaced
statement are no longer what they were, and neither are those of the statements that took its place. Here it is proved
which of them can have changed, and that the replacements were written down in the order of `Lift.targets`.

A part of the tree that lies **ahead** of the walk has not been edited. What is edited while the walk goes through a
statement was pending in it; what is edited later is elsewhere. So whatever was not pending in the statement is never
edited. The new statements are walked through at once and then left alone, so they are brought up to date to what
`Lift.lifted` says.

## Contents

* `Value.Shadow`, `refresh_stamp`: a statement that was written down before it got its marks;
* `Trail.Ahead`, `Lift.Entry`, `Lift.Ledger`: a part ahead of the walk, a replacement, the replacements in a part;
* `Lift.Stage.Joins`: one part of a tree after another;
* `Lift.Passes.written`, `Lift.run_ledger`: the pass.
-/

namespace EsmLift

open Value

/-! ## Before and after the marks are given -/

namespace Value

/-- `u` is `w` with some marks left out. -/
structure Shadow (u w : Value) : Prop where
  erased : u.erase = w.erase
  marks : ∀ m ∈ u.marks, m = 0 ∨ m ∈ w.marks

theorem Shadow.refl (v : Value) : v.Shadow v := ⟨rfl, fun _ hm => .inr hm⟩

theorem Shadow.list {k n : Nat} {xs ys : List Value} (h : List.Forall₂ Shadow xs ys) (hk : k = 0 ∨ k = n) :
    (list k xs).Shadow (list n ys) := by
  refine ⟨?_, fun m hm => ?_⟩
  · have hmap : List.Forall₂ Eq (xs.map erase) (ys.map erase) := List.rel_map (fun u w huw => huw.erased) h
    rw [List.forall₂_eq_eq_eq] at hmap
    rw [erase_list, erase_list, hmap]
  · rw [marks_list] at hm ⊢
    rcases List.mem_cons.mp hm with rfl | hm
    · exact hk.imp id fun hk => List.mem_cons.mpr (.inl hk)
    · obtain ⟨u, hu, hm⟩ := List.mem_flatMap.mp hm
      obtain ⟨w, hw, huw⟩ := exists_left_of_forall₂ h.flip hu
      exact (huw.marks m hm).imp id fun hm => List.mem_cons_of_mem _ (List.mem_flatMap.mpr ⟨w, hw, hm⟩)

theorem Shadow.tuple {xs ys : List Value} (h : List.Forall₂ Shadow xs ys) : (tuple xs).Shadow (tuple ys) := by
  have hlist := Shadow.list (k := 0) (n := 0) h (.inl rfl)
  have herased := hlist.erased
  rw [erase_list, erase_list] at herased
  refine ⟨?_, hlist.marks⟩
  rw [erase_tuple, erase_tuple, (list.inj herased).2]

theorem Shadow.object {k n : Nat} {fs gs : Fields}
    (h : List.Forall₂ (fun f g => f.1 = g.1 ∧ Shadow f.2 g.2) fs gs) (hk : k = 0 ∨ k = n) :
    (object k fs).Shadow (object n gs) := by
  refine ⟨?_, fun m hm => ?_⟩
  · have hmap : List.Forall₂ Eq (fs.map fun f => (f.1, f.2.erase)) (gs.map fun g => (g.1, g.2.erase)) :=
      List.rel_map (fun f g hfg => Prod.ext hfg.1 hfg.2.erased) h
    rw [List.forall₂_eq_eq_eq] at hmap
    rw [erase_object, erase_object, hmap]
  · rw [marks_object] at hm ⊢
    rcases List.mem_cons.mp hm with rfl | hm
    · exact hk.imp id fun hk => List.mem_cons.mpr (.inl hk)
    · obtain ⟨f, hf, hm⟩ := List.mem_flatMap.mp hm
      obtain ⟨g, hg, hfg⟩ := exists_left_of_forall₂ h.flip hf
      exact (hfg.2.marks m hm).imp id fun hm => List.mem_cons_of_mem _ (List.mem_flatMap.mpr ⟨g, hg, hm⟩)

section

variable {R : Revisions} {first : Nat}

theorem refresh_stampItems {xs : List Value}
    (ih : ∀ x ∈ xs, ∀ next, first ≤ next → (x.refresh R).Shadow ((x.stamp next).1.refresh R)) (next : Nat)
    (hnext : first ≤ next) :
    List.Forall₂ Shadow (xs.map (Value.refresh R)) ((stampItems next xs).1.map (Value.refresh R)) := by
  induction xs generalizing next with
  | nil => exact .nil
  | cons x rest ihxs =>
    obtain ⟨hx, hrest⟩ := List.forall_mem_cons.mp ih
    have hle := (count_marks_stamp Nat.one_pos next x).1
    exact .cons (hx next hnext) (ihxs hrest _ (Nat.le_trans hnext hle))

theorem refresh_stampFields {fs : Fields}
    (ih : ∀ f ∈ fs, ∀ next, first ≤ next → (f.2.refresh R).Shadow ((f.2.stamp next).1.refresh R)) (next : Nat)
    (hnext : first ≤ next) :
    List.Forall₂ (fun f g => f.1 = g.1 ∧ Shadow f.2 g.2) (fs.map fun f => (f.1, f.2.refresh R))
      ((stampFields next fs).1.map fun f => (f.1, f.2.refresh R)) := by
  induction fs generalizing next with
  | nil => exact .nil
  | cons f rest ihfs =>
    obtain ⟨k, v⟩ := f
    obtain ⟨hv, hrest⟩ := List.forall_mem_cons.mp ih
    have hle := (count_marks_stamp Nat.one_pos next v).1
    exact .cons ⟨rfl, hv next hnext⟩ (ihfs hrest _ (Nat.le_trans hnext hle))

/-- **Marks that are given later change nothing but themselves**, if none of them has a revision. -/
theorem refresh_stamp (h0 : R.lookup 0 = none) (hfirst : ∀ m, first ≤ m → R.lookup m = none) (v : Value) (next : Nat)
    (hnext : first ≤ next) : (v.refresh R).Shadow ((v.stamp next).1.refresh R) := by
  induction v using Value.induction generalizing next with
  | leaf v hv =>
    have hstamp : (v.stamp next).1 = v := by cases v <;> first | rfl | cases hv
    rw [hstamp]
    exact .refl _
  | list m xs ih =>
    rw [stamp]
    by_cases hm : m = 0
    · rw [if_pos hm]
      subst hm
      have hitems := refresh_stampItems ih (next + 1) (Nat.le_succ_of_le hnext)
      simp only [Value.refresh, h0, hfirst next hnext, Option.getD_none, refreshItems_eq_map]
      exact .list hitems (.inl rfl)
    · rw [if_neg hm]
      have hitems := refresh_stampItems ih next hnext
      cases hl : R.lookup m with
      | some c =>
        simp only [Value.refresh, hl, Option.getD_some]
        exact .refl c
      | none =>
        simp only [Value.refresh, hl, Option.getD_none, refreshItems_eq_map]
        exact .list hitems (.inr rfl)
  | tuple xs ih =>
    rw [stamp]
    simp only [Value.refresh, refreshItems_eq_map]
    exact .tuple (refresh_stampItems ih next hnext)
  | object m fs ih =>
    rw [stamp]
    by_cases hm : m = 0
    · rw [if_pos hm]
      subst hm
      have hfields := refresh_stampFields ih (next + 1) (Nat.le_succ_of_le hnext)
      simp only [Value.refresh, h0, hfirst next hnext, Option.getD_none, refreshFields_eq_map]
      exact .object hfields (.inl rfl)
    · rw [if_neg hm]
      have hfields := refresh_stampFields ih next hnext
      cases hl : R.lookup m with
      | some c =>
        simp only [Value.refresh, hl, Option.getD_some]
        exact .refl c
      | none =>
        simp only [Value.refresh, hl, Option.getD_none, refreshFields_eq_map]
        exact .object hfields (.inr rfl)

end
end Value

/-! ## Parts ahead of the walk -/

/-- A part of the tree that the walk has not been to. Nothing in it was edited, and it can be walked through; the kinds
of the statements `ss` that will be replaced in it have no parts. -/
structure Trail.Ahead (t : Trail Lift.Memory) (pend marks : List Nat) (ss : List Value) : Prop where
  sound : t.Sound
  lists : t.revisions.OfLists
  unedited : ∀ m ∈ marks, t.revisions.lookup m = none
  ready : t.Ready pend marks
  kinds : ∀ s ∈ ss, ∀ kind, s.get? "kind" = some kind → kind.isCompound = false

namespace Trail.Ahead

variable {t t' : Trail Lift.Memory} {pend pend' marks marks' : List Nat} {ss ss' : List Value}

/-- A part of what lies ahead lies ahead. -/
theorem sub (h : t.Ahead pend marks ss) (hp : ∀ m ∈ pend', m ∈ pend) (hm : ∀ m, marks'.count m ≤ marks.count m)
    (hs : ∀ s ∈ ss', s ∈ ss) : t.Ahead pend' marks' ss' where
  sound := h.sound
  lists := h.lists
  unedited m hmem :=
    h.unedited m (List.count_pos_iff.mp (Nat.lt_of_lt_of_le (List.count_pos_iff.mpr hmem) (hm m)))
  ready := h.ready.sub hp hm
  kinds s hmem := h.kinds s (hs s hmem)

theorem left (h : t.Ahead (pend ++ pend') (marks ++ marks') (ss ++ ss')) : t.Ahead pend marks ss :=
  h.sub (fun _ => List.mem_append_left _) (fun m => (List.sublist_append_left ..).count_le m)
    fun _ => List.mem_append_left _

/-- A question changes nothing about what lies ahead. -/
theorem later (h : t.Ahead pend marks ss) (hrev : t'.revisions = t.revisions) (hle : t.next ≤ t'.next) :
    t'.Ahead pend marks ss :=
  ⟨h.sound.later hrev hle, hrev ▸ h.lists, hrev ▸ h.unedited, h.ready.later hle, h.kinds⟩

/-- What lies ahead is up to date. -/
theorem settled (h : t.Ahead pend marks ss) {v : Value} (hv : ∀ m ∈ v.marks, m ∈ marks) : v.Settled t.revisions :=
  fun _ hc => .inl (h.unedited _ (hv _ (List.mem_map_of_mem hc)))

end Trail.Ahead

/-! ## Replacements -/

namespace Lift

/-- A replacement that was asked for between the trails `t` and `t'`, in a part of the tree with the marks `ins`. -/
structure Entry (keepComments : Bool) (ins : List Nat) (t t' : Trail Memory) (r : Replacement) : Prop where
  loads : Statement.loads r.target = true
  split : Statement.split keepComments r.target = .ok r
  marked : ∀ m ∈ r.target.marks, 0 < m
  once : ∀ m ∈ r.target.pending, r.target.marks.count m ≤ 1
  origin : ∀ m ∈ r.target.marks, m ∈ ins ∨ t.next ≤ m ∧ m < t'.next
  /-- What was not pending in the statement was not edited. -/
  unedited : ∀ m ∈ r.target.marks, m ∉ r.target.pending → t'.revisions.lookup m = none
  /-- The new statements, brought up to date, are what they should become. -/
  nodes : ∀ n ∈ r.nodes, (n.refresh t'.revisions).erase = lifted keepComments n.erase
  inside : ∀ n ∈ r.nodes, ∀ m ∈ (n.refresh t'.revisions).marks, m = 0 ∨ m ∈ ins ∨ t.next ≤ m ∧ m < t'.next

/-- The replacements that were asked for in a part of the tree: those of the statements `ss`, in order. The marks in
`pend` may have been edited. -/
structure Ledger (keepComments : Bool) (pend ins : List Nat) (ss : List Value) (t t' : Trail Memory) : Prop where
  next_le : t.next ≤ t'.next
  revised : Revised pend t.revisions t'.revisions
  lists : t'.revisions.OfLists
  entries : ∃ news, t'.memory.replacements = t.memory.replacements ++ news ∧
    news.map (·.target.erase) = ss ∧ ∀ r ∈ news, Entry keepComments ins t t' r

variable {keepComments : Bool} {pend pend₁ pend₂ ins ins₁ ins₂ : List Nat} {ss ss₁ ss₂ : List Value}
  {t t' t₀ t₁ t₂ : Trail Memory} {r : Replacement}

namespace Entry

/-- The same replacement in a larger part, over a longer way. -/
theorem widen (h : Entry keepComments ins₁ t₀ t₁ r) (hle : t.next ≤ t₀.next)
    (hi : ∀ m ∈ ins₁, m ∈ ins ∨ t.next ≤ m ∧ m < t₁.next) : Entry keepComments ins t t₁ r := by
  have hwiden (m : Nat) (hm : m ∈ ins₁ ∨ t₀.next ≤ m ∧ m < t₁.next) : m ∈ ins ∨ t.next ≤ m ∧ m < t₁.next := by
    rcases hm with hm | hm
    · exact hi m hm
    · exact .inr (by omega)
  exact { h with
    origin := fun m hm => hwiden m (h.origin m hm)
    inside := fun n hn m hm => (h.inside n hn m hm).imp id (hwiden m) }

/-- Edits elsewhere do not touch a replacement. -/
theorem still (h : Entry keepComments ins t t₁ r) (hclosed : t₁.revisions.Closed)
    (hrev : Revised pend t₁.revisions t₂.revisions) (hle : t₁.next ≤ t₂.next)
    (hsep : ∀ m ∈ pend, 0 < m ∧ m < t.next ∧ m ∉ ins) : Entry keepComments ins t t₂ r := by
  have hapart (m : Nat) (hm : m ∈ ins ∨ t.next ≤ m ∧ m < t₁.next) : m ∉ pend := by
    intro hp
    obtain ⟨_, hlt, hnot⟩ := hsep m hp
    rcases hm with hm | hm
    · exact hnot hm
    · omega
  have hwiden (m : Nat) (hm : m ∈ ins ∨ t.next ≤ m ∧ m < t₁.next) : m ∈ ins ∨ t.next ≤ m ∧ m < t₂.next :=
    hm.imp id fun hm => by omega
  have hstill (n : Value) (hn : n ∈ r.nodes) : n.refresh t₂.revisions = n.refresh t₁.revisions := by
    rw [← hrev.again n]
    refine hrev.refresh_eq (settled_refresh hclosed n) fun m hm hp => ?_
    rcases h.inside n hn m hm with rfl | hm
    · exact absurd (hsep 0 hp).1 (Nat.lt_irrefl 0)
    · exact hapart m hm hp
  refine ⟨h.loads, h.split, h.marked, h.once, fun m hm => hwiden m (h.origin m hm), fun m hm hnot => ?_,
    fun n hn => ?_, fun n hn m hm => ?_⟩
  · exact hrev.lookup_none (hapart m (h.origin m hm)) (h.unedited m hm hnot)
  · rw [hstill n hn, h.nodes n hn]
  · rw [hstill n hn] at hm
    exact (h.inside n hn m hm).imp id (hwiden m)

end Entry

namespace Ledger

/-- Nothing was asked for, and nothing was edited. -/
theorem idle (h : t.Sound) (hlists : t.revisions.OfLists) (hrev : t'.revisions = t.revisions) (hle : t.next ≤ t'.next)
    (hsame : t'.memory.replacements = t.memory.replacements) : Ledger keepComments pend ins [] t t' where
  next_le := hle
  revised := by
    rw [hrev]
    exact .refl h.closed
  lists := hrev ▸ hlists
  entries := ⟨[], by rw [hsame, List.append_nil], rfl, List.forall_mem_nil _⟩

theorem mono (h : Ledger keepComments pend₁ ins₁ ss t t₁) (hp : ∀ m ∈ pend₁, m ∈ pend) (hi : ∀ m ∈ ins₁, m ∈ ins) :
    Ledger keepComments pend ins ss t t₁ := by
  obtain ⟨news, hnews, htargets, hentries⟩ := h.entries
  exact ⟨h.next_le, h.revised.mono hp, h.lists, news, hnews, htargets,
    fun r hr => (hentries r hr).widen (Nat.le_refl _) fun m hm => .inl (hi m hm)⟩

/-- A question that is answered with `keep` comes first. -/
theorem after (h : Ledger keepComments pend ins ss t₀ t₁) (hrev : t₀.revisions = t.revisions) (hle : t.next ≤ t₀.next)
    (hsame : t₀.memory.replacements = t.memory.replacements) : Ledger keepComments pend ins ss t t₁ := by
  obtain ⟨news, hnews, htargets, hentries⟩ := h.entries
  exact ⟨Nat.le_trans hle h.next_le, hrev ▸ h.revised, h.lists, news, hsame ▸ hnews, htargets,
    fun r hr => (hentries r hr).widen hle fun m hm => .inl hm⟩

theorem sound (h : Ledger keepComments pend ins ss t t₁) (ht : t.Sound) (hp : ∀ m ∈ pend, m < t.next) : t₁.Sound where
  pos := Nat.lt_of_lt_of_le ht.pos h.next_le
  closed := h.revised.closed
  fresh m hm := by
    have hle := Nat.le_trans h.next_le hm
    exact h.revised.lookup_none (fun hmem => absurd (hp m hmem) (Nat.not_lt.mpr hle)) (ht.fresh m hle)

/-- What comes second still lies ahead when the walk has been through what comes first. -/
theorem ahead (h : Ledger keepComments pend₁ ins₁ ss₁ t t₁)
    (ht : t.Ahead (pend₁ ++ pend₂) (ins₁ ++ ins₂) (ss₁ ++ ss₂)) (hp : ∀ m ∈ pend₁, m ∈ ins₁) :
    t₁.Ahead pend₂ ins₂ ss₂ where
  sound := h.sound ht.sound fun m hm => (ht.ready.left.bounded m (hp m hm)).2
  lists := h.lists
  unedited m hm := by
    refine h.revised.lookup_none (fun hmem => ?_) (ht.unedited m (List.mem_append_right _ hm))
    exact ht.ready.disjoint (List.mem_append_left _ hmem) (hp m hmem) hm
  ready := ht.ready.right.later h.next_le
  kinds s hs := ht.kinds s (List.mem_append_right _ hs)

/-- **One part after another.** -/
theorem trans (h₁ : Ledger keepComments pend₁ ins₁ ss₁ t t₁) (h₂ : Ledger keepComments pend₂ ins₂ ss₂ t₁ t₂)
    (ht : t.Ahead (pend₁ ++ pend₂) (ins₁ ++ ins₂) (ss₁ ++ ss₂)) (hp : ∀ m ∈ pend₂, m ∈ ins₂) :
    Ledger keepComments (pend₁ ++ pend₂) (ins₁ ++ ins₂) (ss₁ ++ ss₂) t t₂ := by
  obtain ⟨news₁, hnews₁, htargets₁, hentries₁⟩ := h₁.entries
  obtain ⟨news₂, hnews₂, htargets₂, hentries₂⟩ := h₂.entries
  have hsep (m : Nat) (hm : m ∈ pend₂) : 0 < m ∧ m < t.next ∧ m ∉ ins₁ := by
    have hb := ht.ready.right.bounded m (hp m hm)
    exact ⟨hb.1, hb.2, fun hin => ht.ready.disjoint (List.mem_append_right _ hm) hin (hp m hm)⟩
  refine ⟨Nat.le_trans h₁.next_le h₂.next_le, h₁.revised.trans h₂.revised, h₂.lists, news₁ ++ news₂, ?_, ?_,
    fun r hr => ?_⟩
  · rw [hnews₂, hnews₁, List.append_assoc]
  · rw [List.map_append, htargets₁, htargets₂]
  · rcases List.mem_append.mp hr with hr | hr
    · exact ((hentries₁ r hr).still h₁.revised.closed h₂.revised h₂.next_le hsep).widen (Nat.le_refl _)
        fun m hm => .inl (List.mem_append_left _ hm)
    · exact (hentries₂ r hr).widen h₁.next_le fun m hm => .inl (List.mem_append_right _ hm)

/-- A statement was replaced, and then those in what took its place, with marks from the statement or new ones. -/
theorem cons (hentry : Entry keepComments ins t t₁ r) (h : Ledger keepComments pend₁ ins₁ ss t₀ t₁)
    (hrev : t₀.revisions = t.revisions) (hle : t.next ≤ t₀.next)
    (hwritten : t₀.memory.replacements = t.memory.replacements ++ [r]) (hp : ∀ m ∈ pend₁, m ∈ pend)
    (hi : ∀ m ∈ ins₁, m ∈ ins ∨ t.next ≤ m ∧ m < t₀.next) :
    Ledger keepComments pend ins (r.target.erase :: ss) t t₁ := by
  obtain ⟨news, hnews, htargets, hentries⟩ := h.entries
  have hle' := h.next_le
  refine ⟨Nat.le_trans hle hle', hrev ▸ h.revised.mono hp, h.lists, r :: news, ?_, ?_,
    List.forall_mem_cons.mpr ⟨hentry, fun q hq => (hentries q hq).widen hle fun m hm => ?_⟩⟩
  · rw [hnews, hwritten, List.append_assoc]
    rfl
  · rw [List.map_cons, htargets]
  · exact (hi m hm).imp id fun hnew => by omega

end Ledger
end Lift

/-! ## Edits of lists -/

/-- Unmarked values have no revision. -/
theorem Revisions.Closed.lookup_zero {R : Revisions} (h : R.Closed) : R.lookup 0 = none := by
  cases hl : R.lookup 0 with
  | none => rfl
  | some c => exact absurd (h 0 c hl).1 (Nat.lt_irrefl 0)

theorem Revisions.OfLists.recordList {R : Revisions} (h : R.OfLists) (m : Nat) (xs : List Value) :
    (R.recordList m xs).OfLists := by
  have hone : Revisions.OfLists [(m, .list m (refreshItems R xs))] := by
    intro k c hl
    rw [List.lookup_cons] at hl
    split at hl
    · cases hl; rfl
    · cases hl
  intro k c hl
  by_cases hk : k = m
  · subst hk
    rw [Revisions.recordList, Revisions.lookup_record_self] at hl
    cases hl
    rfl
  · rw [Revisions.recordList, Revisions.lookup_record_ne R _ hk] at hl
    obtain ⟨d, hd, rfl⟩ := Option.map_eq_some_iff.mp hl
    have hobj := h k d hd
    rw [Syntax.isObject_refresh hone (by rw [hobj]; exact fun h => absurd h Bool.false_ne_true), hobj]

namespace Lift.Ledger

variable {category : Value} {keepComments program edited : Bool} {mark : Nat} {xs out : List Value} {ss : List Value}
  {t t₁ : Trail Memory}

/-- A list, once its items were walked through. If some were replaced, the new ones are kept under its mark. -/
theorem list (h : Ledger keepComments (pendingItems program xs) (marksItems xs) ss t t₁)
    (ht : t.Ahead (pendingSlot program (.list mark xs)) (Value.list mark xs).marks ss)
    (hout : Relisted category keepComments program xs out edited t t₁) :
    Ledger keepComments (pendingSlot program (.list mark xs)) (Value.list mark xs).marks ss t
      (if edited then t₁.recordList mark out else t₁) := by
  have hwiden (m : Nat) (hm : m ∈ pendingItems program xs) : m ∈ pendingSlot program (.list mark xs) :=
    List.mem_append_right _ hm
  rw [marks_list] at ht ⊢
  cases edited with
  | false => exact h.mono hwiden fun m => List.mem_cons_of_mem _
  | true =>
    obtain ⟨hpos, hlt⟩ := ht.ready.bounded mark List.mem_cons_self
    have hself : mark ∈ pendingSlot program (.list mark xs) := by
      rw [pendingSlot, if_pos (hout.spliced rfl)]
      exact List.mem_cons_self
    -- the list is pending itself, so neither the old items nor the new ones hold it
    have hnot : mark ∉ marksItems out := by
      intro hm
      obtain ⟨o₀, ho₀⟩ := exists_owner program
      rcases (hout.visited o₀ ho₀).origin mark hm with hin | hnew
      · exact ht.ready.head_not_mem hself hin
      · omega
    have hrecord : Ledger keepComments [mark] [mark] [] t₁ (t₁.recordList mark out) :=
      ⟨Nat.le_refl _, (Revised.recordList h.revised.closed hpos hout.settled hnot).1, h.lists.recordList mark out,
        [], (List.append_nil _).symm, rfl, List.forall_mem_nil _⟩
    have hboth : t.Ahead (pendingItems program xs ++ [mark]) (marksItems xs ++ [mark]) (ss ++ []) := by
      refine ht.sub (fun m hm => ?_) (fun m => ?_) fun s hs => ?_
      · rcases List.mem_append.mp hm with hm | hm
        · exact hwiden m hm
        · rw [List.mem_singleton.mp hm]
          exact hself
      · exact Nat.le_of_eq ((List.perm_append_singleton mark (marksItems xs)).count_eq m)
      · rwa [List.append_nil] at hs
    have htrans := h.trans hrecord hboth fun m hm => hm
    rw [List.append_nil] at htrans
    refine htrans.mono (fun m hm => ?_) fun m hm => ?_
    · rcases List.mem_append.mp hm with hm | hm
      · exact hwiden m hm
      · rw [List.mem_singleton.mp hm]
        exact hself
    · rcases List.mem_append.mp hm with hm | hm
      · exact List.mem_cons_of_mem _ hm
      · rw [List.mem_singleton.mp hm]
        exact List.mem_cons_self

end Lift.Ledger

/-! ## A statement that gives way -/

namespace Statement.Opened

open Lift

variable {category : Value} {keepComments : Bool} {v kind : Value} {r : Replacement} {ps : List Piece} {out : List Value}
  {ss ss' : List Value} {t t' t₁ : Trail Memory}

/-- The new statements that were written down, once those with marks were walked through. -/
theorem nodes_refresh (h : Opened keepComments v r kind ps t t') (hclosed : t₁.revisions.Closed)
    (hfresh : ∀ m, t.next ≤ m → t₁.revisions.lookup m = none) (hsettled : ∀ x ∈ out, x.Settled t₁.revisions)
    (herased : out.map erase = ps.map fun p => lifted keepComments (p.value kind).erase)
    (hsame : out.map (Value.refresh t₁.revisions) = ps.map fun p => (p.value kind).refresh t₁.revisions) :
    (∀ n ∈ r.nodes, (n.refresh t₁.revisions).erase = lifted keepComments n.erase) ∧
      ∀ n ∈ r.nodes, ∀ m ∈ (n.refresh t₁.revisions).marks, m = 0 ∨ m ∈ marksItems out := by
  have hshadow : List.Forall₂ Shadow (r.nodes.map (Value.refresh t₁.revisions))
      ((stampItems t.next r.nodes).1.map (Value.refresh t₁.revisions)) :=
    refresh_stampItems (fun n _ => refresh_stamp hclosed.lookup_zero hfresh n) t.next (Nat.le_refl _)
  have hout : (ps.map (Piece.value kind)).map (Value.refresh t₁.revisions) = out := by
    rw [List.map_map, ← items_map_self fun x hx => (hsettled x hx).refresh]
    exact hsame.symm
  rw [h.nodes] at hshadow
  dsimp only at hshadow
  rw [hout] at hshadow
  refine ⟨fun n hn => ?_, fun n hn m hm => ?_⟩
  · have hmap : (r.nodes.map (Value.refresh t₁.revisions)).map erase = r.nodes.map (lifted keepComments ∘ erase) := by
      have hrel : List.Forall₂ Eq ((r.nodes.map (Value.refresh t₁.revisions)).map erase) (out.map erase) :=
        List.rel_map (fun u w huw => huw.erased) hshadow
      rw [List.forall₂_eq_eq_eq] at hrel
      rw [hrel, herased, ← List.map_map, h.nodes_erase, List.map_map]
      rfl
    rw [List.map_map] at hmap
    exact List.map_inj_left.mp hmap n hn
  · obtain ⟨w, hw, huw⟩ := exists_left_of_forall₂ hshadow.flip (List.mem_map_of_mem hn)
    exact (huw.marks m hm).imp id fun hm => List.mem_flatMap.mpr ⟨w, hw, hm⟩

/-- **The entry of a statement that gave way to its pieces.** -/
theorem entry (h : Opened keepComments v r kind ps t t') (ht : t.Ahead v.pending v.marks ss)
    (hpieces : Repieced category keepComments kind ps out t' t₁)
    (hsame : out.map (Value.refresh t₁.revisions) = ps.map fun p => (p.value kind).refresh t₁.revisions) :
    Entry keepComments v.marks t t₁ r := by
  obtain rfl : r.target = v := (Statement.split_ok h.split).1
  have hvisited := hpieces.visited .null
  have hpend (m : Nat) (hnot : m ∉ r.target.pending) (hm : t.revisions.lookup m = none) :
      t₁.revisions.lookup m = none :=
    hvisited.revised.lookup_none (fun hp => hnot (h.parted.mem_pending hp)) (h.revisions ▸ hm)
  -- the marks that the new statements got are not pending, and so they have no revisions
  have hfresh (m : Nat) (hm : t.next ≤ m) : t₁.revisions.lookup m = none := by
    refine hpend m (fun hp => ?_) (ht.sound.fresh m hm)
    exact absurd (ht.ready.bounded m (mem_marks_of_pending _ hp)).2 (Nat.not_lt.mpr hm)
  have hpos (m : Nat) (hm : m ∈ r.target.marks) : 0 < m := (ht.ready.bounded m hm).1
  obtain ⟨hlifted, hinside⟩ := h.nodes_refresh hvisited.revised.closed hfresh hpieces.settled hpieces.erased hsame
  refine ⟨h.loads, h.split, hpos, ht.ready.once, fun m hm => .inl hm,
    fun m hm hnot => hpend m hnot (ht.unedited m hm), hlifted,
    fun n hn m hm => (hinside n hn m hm).imp id fun hm => ?_⟩
  have hle := hvisited.next_le
  have hle' := h.parted.le
  rcases hvisited.origin m hm with hin | hnew
  · exact (h.parted.mem_marks hpos ht.sound.pos hin).imp id fun hfresh => by omega
  · exact .inr (by omega)

/-- The pieces of a statement ahead of the walk lie ahead of it, once they have their marks. -/
theorem ahead (h : Opened keepComments v r kind ps t t') (ht : t.Ahead v.pending v.marks ss)
    (hss : ∀ s ∈ ss', s ∈ ss) :
    t'.Ahead (ps.flatMap fun p => pendingFields false p.fields) (marksItems (ps.map Piece.own)) ss' := by
  obtain ⟨ht', hcurrent, _, hready⟩ := h.walkable ht.sound (ht.settled fun m hm => hm) ht.ready
  rw [hcurrent] at hready
  refine ⟨ht', h.revisions ▸ ht.lists, fun m hm => ?_, hready.right, fun s hs => ht.kinds s (hss s hs)⟩
  rw [h.revisions]
  have hpos (k : Nat) (hk : k ∈ v.marks) : 0 < k := (ht.ready.bounded k hk).1
  rcases h.parted.mem_marks hpos ht.sound.pos (List.mem_append_right _ hm) with hin | hnew
  · exact ht.unedited m hin
  · exact ht.sound.fresh m hnew.1

end Statement.Opened

/-! ## The replacements of a stage -/

namespace Lift

/-- The statements that are replaced in fields of an object. -/
def targetsFields (keepComments program : Bool) (fs : Fields) : List Value :=
  fs.flatMap fun f =>
    if Syntax.metadataKeys.contains f.1 then [] else targetsSlot keepComments program f.2.erase

theorem targets_erase (keepComments : Bool) (m : Nat) (fs : Fields) :
    targets keepComments (Value.object m fs).erase
      = targetsFields keepComments ((Value.object m fs).isA .program) fs := by
  have hA := regular_erase.isA (.object m fs) .program
  rw [erase_object] at hA ⊢
  rw [targets_object, hA, List.flatMap_map]
  rfl

namespace Stage

/-- The marks that are pending in a stage; the common kind of pieces is left out. -/
def pendings : Stage → List Nat
  | children v => v.pending
  | fields program _ _ todo => pendingFields program todo
  | slot program _ key v => if Syntax.metadataKeys.contains key then [] else pendingSlot program v
  | items program _ _ todo => pendingItems program todo
  | pieces _ ps => ps.flatMap fun p => pendingFields false p.fields

/-- The marks in a stage; the common kind of pieces is left out. -/
def inside : Stage → List Nat
  | children v => v.marks
  | fields _ _ _ todo => marksFields todo
  | slot _ _ _ v => v.marks
  | items _ _ _ todo => marksItems todo
  | pieces _ ps => marksItems (ps.map Piece.own)

/-- The statements that are going to be replaced in a stage. -/
def due (keepComments : Bool) : Stage → List Value
  | children v => targets keepComments v.erase
  | fields program _ _ todo => targetsFields keepComments program todo
  | slot program _ key v => if Syntax.metadataKeys.contains key then [] else targetsSlot keepComments program v.erase
  | items program _ _ todo => todo.flatMap fun x => targetsItem keepComments program x.erase
  | pieces kind ps => ps.flatMap fun p => targets keepComments (p.value kind).erase

/-- The common kind of pieces has no parts. -/
def Simple : Stage → Prop
  | pieces kind _ => kind.isCompound = false
  | _ => True

/-- The stage lies ahead of the walk. -/
abbrev Ahead (keepComments : Bool) (stage : Stage) (t : Trail Memory) : Prop :=
  t.Ahead stage.pendings stage.inside (stage.due keepComments)

/-- The replacements that were asked for in a stage. -/
abbrev Written (keepComments : Bool) (stage : Stage) (t t' : Trail Memory) : Prop :=
  Ledger keepComments stage.pendings stage.inside (stage.due keepComments) t t'

theorem mem_inside_of_pendings {stage : Stage} {m : Nat} (h : m ∈ stage.pendings) : m ∈ stage.inside := by
  cases stage with
  | children v => exact mem_marks_of_pending v h
  | fields program mark done todo => exact mem_marks_of_pendingFields program todo h
  | slot program owner key v =>
    have hm : m ∈ if Syntax.metadataKeys.contains key then [] else pendingSlot program v := h
    split at hm
    · exact absurd hm List.not_mem_nil
    · exact mem_marks_of_pendingSlot program v hm
  | items program owner done todo => exact mem_marks_of_pendingItems program todo h
  | pieces kind ps =>
    obtain ⟨p, hp, hm⟩ := List.mem_flatMap.mp h
    refine List.mem_flatMap.mpr ⟨p.own, List.mem_map_of_mem hp, ?_⟩
    rw [Piece.own, marks_object]
    exact List.mem_cons_of_mem _ (mem_marks_of_pendingFields false p.fields hm)

/-- A stage that falls into two. -/
structure Joins (keepComments : Bool) (stage first second : Stage) : Prop where
  pendings : stage.pendings = first.pendings ++ second.pendings
  inside : stage.inside = first.inside ++ second.inside
  due : stage.due keepComments = first.due keepComments ++ second.due keepComments

namespace Joins

variable {keepComments : Bool} {stage first second : Stage} {t t₁ t₂ : Trail Memory}

theorem left (h : Joins keepComments stage first second) (ht : stage.Ahead keepComments t) :
    first.Ahead keepComments t := by
  unfold Stage.Ahead at ht
  rw [h.pendings, h.inside, h.due] at ht
  exact ht.left

/-- The second part still lies ahead when the first one was walked through. -/
theorem right (h : Joins keepComments stage first second) (ht : stage.Ahead keepComments t)
    (hfirst : first.Written keepComments t t₁) : second.Ahead keepComments t₁ := by
  unfold Stage.Ahead at ht
  rw [h.pendings, h.inside, h.due] at ht
  exact hfirst.ahead ht fun m => mem_inside_of_pendings

theorem written (h : Joins keepComments stage first second) (ht : stage.Ahead keepComments t)
    (hfirst : first.Written keepComments t t₁) (hsecond : second.Written keepComments t₁ t₂) :
    stage.Written keepComments t t₂ := by
  unfold Stage.Ahead at ht
  rw [h.pendings, h.inside, h.due] at ht
  unfold Stage.Written
  rw [h.pendings, h.inside, h.due]
  exact hfirst.trans hsecond ht fun m => mem_inside_of_pendings

end Joins

/-- The first field and the others. -/
theorem joins_field (keepComments program : Bool) (mark : Nat) (done done' rest : Fields) (owner : Value → Value)
    (key : String) (v : Value) : Joins keepComments (fields program mark done ((key, v) :: rest))
      (slot program owner key v) (fields program mark done' rest) := by
  refine ⟨pendingFields.eq_def .., marksFields_cons .., ?_⟩
  rw [due, targetsFields, List.flatMap_cons]
  rfl

/-- The first item and the others. -/
theorem joins_item (keepComments program : Bool) (owner : List Value → Value) (done done' rest : List Value) (v : Value) :
    Joins keepComments (items program owner done (v :: rest)) (items program owner done [v])
      (items program owner done' rest) :=
  ⟨pendingItems_append program [v] rest, marksItems_append [v] rest, @List.flatMap_append _ _ [v] rest _⟩

/-- The first piece and the others. -/
theorem joins_piece (keepComments : Bool) (kind : Value) (p : Piece) (others : List Piece) :
    Joins keepComments (pieces kind (p :: others)) (pieces kind [p]) (pieces kind others) :=
  ⟨@List.flatMap_append _ _ [p] others _, marksItems_append [p.own] _, @List.flatMap_append _ _ [p] others _⟩

end Stage

/-! ## The pass -/

variable {category : Value} {keepComments : Bool} {n : Nat} {stage : Stage} {t t' t₁ : Trail Memory} {qs : List Question}

/-- Nothing is replaced, and nothing was asked for. -/
theorem Stage.Ahead.idle (ht : stage.Ahead keepComments t) (hnone : stage.due keepComments = []) :
    stage.Written keepComments t t := by
  unfold Stage.Written
  rw [hnone]
  exact .idle ht.sound ht.lists rfl (Nat.le_refl _) rfl

section

variable {program : Bool} {owner : List Value → Value} {done : List Value} {v : Value}

/-- An item that is no node. -/
theorem Stage.Ahead.other (ht : (Stage.items program owner done [v]).Ahead keepComments t) (hnode : v.isNode = false) :
    (Stage.items program owner done [v]).Written keepComments t t := by
  refine ht.idle ?_
  rw [Stage.due, List.flatMap_singleton, targetsItem_other keepComments program (by rw [isNode_erase, hnode])]

/-- A node that is asked about and kept lies ahead, and so do the replacements in it. -/
theorem Stage.Ahead.kept (ht : (Stage.items program owner done [v]).Ahead keepComments t) (hnode : v.isNode = true)
    (hload : (program && Statement.loads v) = false) : (Stage.children v).Ahead keepComments t ∧
      ((Stage.children v).Written keepComments t t₁ →
        (Stage.items program owner done [v]).Written keepComments t t₁) := by
  have hpend (m : Nat) (hm : m ∈ v.pending) : m ∈ pendingItems program [v] := mem_pendingItems List.mem_cons_self hnode hm
  have hdue : (Stage.items program owner done [v]).due keepComments = (Stage.children v).due keepComments := by
    refine (List.flatMap_singleton ..).trans ?_
    exact targetsItem_keep keepComments (by rw [isNode_erase, hnode]) (by rw [Statement.loads_erase, hload])
  refine ⟨ht.sub hpend (fun m => count_marks_item_le List.mem_cons_self m) fun s hs => hdue ▸ hs, fun h => ?_⟩
  unfold Stage.Written
  rw [hdue]
  exact h.mono hpend fun m hm => List.mem_flatMap.mpr ⟨v, List.mem_cons_self, hm⟩

/-- A candidate of a program: its pieces lie ahead, and their kind has no parts. -/
theorem Stage.Ahead.opened {r : Replacement} {kind : Value} {ps : List Piece}
    (ht : (Stage.items true owner done [v]).Ahead keepComments t)
    (hopen : Statement.Opened keepComments v r kind ps t t') :
    (Stage.pieces kind ps).Simple ∧ (Stage.pieces kind ps).Ahead keepComments t' ∧
      t.Ahead v.pending v.marks (v.erase :: (Stage.pieces kind ps).due keepComments) ∧
      (Stage.items true owner done [v]).due keepComments = v.erase :: (Stage.pieces kind ps).due keepComments := by
  have hdue : (Stage.items true owner done [v]).due keepComments
      = v.erase :: (Stage.pieces kind ps).due keepComments := by
    rw [Stage.due, List.flatMap_singleton, targetsItem_replaced keepComments (by rw [Statement.loads_erase, hopen.loads]),
      hopen.replaced_erase, List.flatMap_map]
    rfl
  have hself : t.Ahead v.pending v.marks (v.erase :: (Stage.pieces kind ps).due keepComments) :=
    ht.sub (fun m hm => mem_pendingItems List.mem_cons_self (Statement.isNode_of_loads hopen.loads) hm)
      (fun m => count_marks_item_le List.mem_cons_self m) fun s hs => hdue ▸ hs
  refine ⟨?_, hopen.ahead hself fun s => List.mem_cons_of_mem _, hself, hdue⟩
  show kind.isCompound = false
  rw [← isCompound_erase]
  exact hself.kinds v.erase List.mem_cons_self kind.erase (by rw [get?_erase, hopen.parted.kindOf]; rfl)

/-- A candidate of a program gave way to its pieces, which were walked through. -/
theorem Stage.Ahead.spliced {r : Replacement} {kind : Value} {ps : List Piece} {w : Walked Memory (List Value)}
    (ht : (Stage.items true owner done [v]).Ahead keepComments t)
    (hopen : Statement.Opened keepComments v r kind ps t t')
    (hpieces : Passes category keepComments n (.pieces kind ps) t' qs w) (hfault : w.fault = none)
    (h : (Stage.pieces kind ps).Written keepComments t' w.trail) :
    (Stage.items true owner done [v]).Written keepComments t w.trail := by
  obtain ⟨_, _, hself, hdue⟩ := ht.opened hopen
  have hcurrent : t'.current kind = kind :=
    (hopen.walkable hself.sound (hself.settled fun m hm => hm) hself.ready).2.1
  have hachieved : Repieced category keepComments (t'.current kind) ps w.value t' w.trail := hpieces.achieved hfault
  have hadvanced : AdvancedPieces keepComments _ (t'.current kind) ps w.value t' w.trail := hpieces.advances
  have hsame := hadvanced.same
  rw [hcurrent] at hachieved hsame
  have hentry := hopen.entry hself hachieved hsame
  have hpos (k : Nat) (hk : k ∈ v.marks) : 0 < k := (hself.ready.bounded k hk).1
  unfold Stage.Written
  rw [hdue]
  obtain rfl : r.target = v := (Statement.split_ok hopen.split).1
  rw [Stage.inside, marksItems_cons, marksItems_nil, List.append_nil]
  refine .cons hentry h hopen.revisions hopen.parted.le hopen.replacements (fun m hm => ?_) fun m hm => ?_
  · exact mem_pendingItems List.mem_cons_self (Statement.isNode_of_loads hopen.loads)
      (hopen.parted.mem_pending (List.mem_append_right _ hm))
  · exact hopen.parted.mem_marks hpos hself.sound.pos (List.mem_append_right _ hm)

variable {kind : Value} {p : Piece}

/-- The first piece; the kind has no parts, so it adds nothing to it. -/
theorem Stage.Ahead.piece (ht : (Stage.pieces kind [p]).Ahead keepComments t) (hkind : kind.isCompound = false)
    (hA : (p.value kind).isA .program = false) : (Stage.children (p.value kind)).Ahead keepComments t ∧
      ((Stage.children (p.value kind)).Written keepComments t t₁ →
        (Stage.pieces kind [p]).Written keepComments t t₁) := by
  have hnone : pendingSlot false kind = [] ∧ kind.marks = [] := by
    refine ⟨?_, marks_leaf hkind⟩
    cases kind <;> first | rfl | cases hkind
  have hcount (m : Nat) : (p.value kind).marks.count m ≤ (marksItems [p.own]).count m := by
    have hle : (p.value kind).marks.count m ≤ kind.marks.count m + p.own.marks.count m := p.count_marks_value_le m
    rw [hnone.2, List.count_nil, Nat.zero_add] at hle
    rwa [marksItems_cons, marksItems_nil, List.append_nil]
  have hpend (m : Nat) (hm : m ∈ (p.value kind).pending) : m ∈ (Stage.pieces kind [p]).pendings := by
    have hmem := Piece.pending_value_subset hA hm
    rw [hnone.1, List.nil_append] at hmem
    exact List.mem_flatMap.mpr ⟨p, List.mem_cons_self, hmem⟩
  have hdue : (Stage.pieces kind [p]).due keepComments = (Stage.children (p.value kind)).due keepComments :=
    List.flatMap_singleton ..
  refine ⟨ht.sub hpend hcount fun s hs => hdue ▸ hs, fun h => ?_⟩
  unfold Stage.Written
  rw [hdue]
  refine h.mono hpend fun m hm => ?_
  exact List.count_pos_iff.mp (Nat.lt_of_lt_of_le (List.count_pos_iff.mpr hm) (hcount m))

end

/-- A question that is answered with `keep` changes nothing. -/
theorem Stage.Written.kept {v : Value} {owner : Option Value}
    (hask : (visitor category keepComments).ask v owner t = (.ok .keep, t'))
    (h : stage.Written keepComments t' t₁) : stage.Written keepComments t t₁ := by
  obtain ⟨hrev, hle⟩ := Visitor.ask_keeps hask
  exact h.after hrev hle (replacements_of_keep hask)

theorem Stage.Ahead.asked {v : Value} {owner : Option Value} {answer : Except Fault Answer}
    (hask : (visitor category keepComments).ask v owner t = (answer, t')) (h : stage.Ahead keepComments t) :
    stage.Ahead keepComments t' := by
  obtain ⟨hrev, hle⟩ := Visitor.ask_keeps hask
  exact h.later hrev hle

/-- **The replacements are written down in order**, unless a fault stops the pass. -/
theorem Passes.written {w : Walked Memory stage.task.Result} (h : Passes category keepComments n stage t qs w)
    (hsimple : stage.Simple) (ht : stage.Ahead keepComments t) (hf : w.fault = none) :
    stage.Written keepComments t w.trail := by
  induction h with
  | exhausted | fieldStop | slotFault | slotSplice | itemFault | itemKeepStop | itemSpliceStop | pieceStop => cases hf
  | noFields | noItems | noPieces => exact ht.idle rfl
  | @object n mark fs t qs w hw _ _ ih =>
    have hdue := targets_erase keepComments mark fs
    have hsub (m : Nat) : (marksFields fs).count m ≤ (Value.object mark fs).marks.count m := by
      rw [marks_object]
      exact (List.sublist_cons_self ..).count_le m
    have hfields := ih trivial (ht.sub (fun m hm => hm) hsub fun s hs => by rw [Stage.due, hdue]; exact hs) hf
    unfold Stage.Written
    rw [Stage.due, hdue]
    refine hfields.mono (fun m hm => hm) fun m hm => ?_
    exact List.count_pos_iff.mp (Nat.lt_of_lt_of_le (List.count_pos_iff.mpr hm) (hsub m))
  | @field n mark program done rest key v t qs qs' here later _ _ hfault _ ih ih' =>
    have hjoin := Stage.joins_field keepComments program mark done (done ++ [(key, here.value)]) rest
      (fun w => .object mark (done ++ (key, w) :: rest)) key v
    have hhere := ih trivial (hjoin.left ht) hfault
    exact hjoin.written ht hhere (ih' trivial (hjoin.right ht hhere) hf)
  | metadata _ hkey => exact ht.idle (if_pos hkey)
  | @slotList n program owner key mark xs t qs w hw hkey hitems ih =>
    obtain ⟨out, hvalue, hout⟩ := hitems.achieved hf
    have hdue : (Stage.slot program owner key (.list mark xs)).due keepComments
        = xs.flatMap fun x => targetsItem keepComments program x.erase := by
      rw [Stage.due, hkey, if_neg Bool.false_ne_true, erase_list, targetsSlot_list, List.flatMap_map]
    unfold Stage.Ahead at ht
    unfold Stage.Written
    rw [hdue, Stage.pendings, hkey, if_neg Bool.false_ne_true] at ht ⊢
    have hahead : t.Ahead (pendingItems program xs) (marksItems xs)
        (xs.flatMap fun x => targetsItem keepComments program x.erase) := by
      refine ht.sub (fun m => List.mem_append_right _) (fun m => ?_) fun s hs => hs
      rw [Stage.inside, marks_list]
      exact (List.sublist_cons_self ..).count_le m
    have hledger := (ih trivial hahead hf).list ht hout
    rw [← List.nil_append out, ← hvalue] at hledger
    exact hledger
  | slotOther _ hkey hlist hnode =>
    refine ht.idle ?_
    rw [Stage.due, hkey, if_neg Bool.false_ne_true]
    exact targetsSlot_other keepComments _ (by rw [isNode_erase, hnode]) (erase_ne_list hlist)
  | @slotKeep n program owner key v t t' qs w _ hkey hnode hask _ ih =>
    unfold Stage.Ahead at ht
    unfold Stage.Written
    rw [Stage.pendings, Stage.due, hkey, if_neg Bool.false_ne_true, if_neg Bool.false_ne_true,
      pendingSlot_node program hnode, targetsSlot_node keepComments program (by rw [isNode_erase, hnode])] at ht ⊢
    have hahead : (Stage.children v).Ahead keepComments t := ht
    exact (ih trivial (hahead.asked hask) hf).kept hask
  | @itemOther n program owner done rest v t qs w _ hnode _ ih =>
    have hjoin := Stage.joins_item keepComments program owner done (done ++ [v]) rest v
    have hfirst := (hjoin.left ht).other hnode
    exact hjoin.written ht hfirst (ih trivial (hjoin.right ht hfirst) hf)
  | @itemKeep n program owner done rest v t t' qs qs' w later hw hnode hask _ hfault _ ih ih' =>
    have hjoin := Stage.joins_item keepComments program owner done (done ++ [w.value]) rest v
    obtain ⟨hahead, hwritten⟩ := (hjoin.left ht).kept hnode (hw.not_loads hask)
    have hfirst := hwritten ((ih trivial (hahead.asked hask) hfault).kept hask)
    exact hjoin.written ht hfirst (ih' trivial (hjoin.right ht hfirst) hf)
  | @itemSplice n owner done rest v t t' r kind ps qs qs' w later _ _ hopen hpieces hfault _ ih ih' =>
    have hjoin := Stage.joins_item keepComments true owner done (done ++ w.value) rest v
    obtain ⟨hkind, hahead, _, _⟩ := (hjoin.left ht).opened hopen
    have hfirst := (hjoin.left ht).spliced hopen hpieces hfault (ih hkind hahead hfault)
    exact hjoin.written ht hfirst (ih' trivial (hjoin.right ht hfirst) hf)
  | @piece n kind p rest t qs qs' w later hw _ hfault _ ih ih' =>
    have hjoin := Stage.joins_piece keepComments kind p rest
    have hcurrent : t.current kind = kind := refresh_leaf hsimple
    rw [hcurrent] at ih
    obtain ⟨hahead, hwritten⟩ := (hjoin.left ht).piece hsimple (hw.notProgram p List.mem_cons_self kind)
    have hfirst := hwritten (ih trivial hahead hfault)
    exact hjoin.written ht hfirst (ih' hsimple (hjoin.right ht hfirst) hf)

end Lift
end EsmLift
