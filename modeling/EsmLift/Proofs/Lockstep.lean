import EsmLift.Proofs.Rules

/-!
# `Proofs.Lockstep` — two visitors whose memories correspond

A walk hands the memory of its visitor from one question to the next and never looks into it. So if the memory of one
visitor is read off the memory of another, question by question, it is read off at the end of the walk too, and the two
walks leave the same tree. Three uses: a visitor that also writes something down goes the same way; what every question
keeps, the walk keeps; and a sink that was used before takes the same warnings as a new one. Two visitors with one kind
of memory need not answer alike everywhere: it is enough that they do up to where the walk ends.

## Contents

* `Visitor.Along`: the one visitor remembers what `f` makes of the memory of the other;
* `Trail.map`, `Walked.map`, `Outcome.map`;
* `Walk.Runs.lift`, `walk_map`: the walk, rule by rule, and whole walks;
* `Walk.Runs.keeps`, `walk_keeps`: what each question keeps holds of the memory at the end;
* `Visitor.AgreeUpTo`, `Walk.Runs.agree`, `walk_agree`: visitors that answer alike up to the end of the walk.
-/

namespace EsmLift

variable {σ τ : Type}

/-- At every node `V`, which remembers `f m`, answers like `W`, which remembers `m`, and then remembers what `f` makes
of the new memory of `W`. -/
def Visitor.Along (f : τ → σ) (W : Visitor τ) (V : Visitor σ) : Prop :=
  ∀ v owner m, V.enter v owner (f m) = ((W.enter v owner m).1, f (W.enter v owner m).2)

/-- A trail with another memory. -/
def Trail.map (f : τ → σ) (t : Trail τ) : Trail σ := ⟨f t.memory, t.next, t.revisions⟩

/-- The result of a step with another memory. -/
def Walked.map {α : Type} (f : τ → σ) (w : Walked τ α) : Walked σ α := ⟨w.value, w.edited, w.fault, w.trail.map f⟩

/-- The end of a walk with another memory. -/
def Outcome.map (f : τ → σ) (o : Outcome τ) : Outcome σ :=
  ⟨o.root, o.tree, o.replaced, o.fault, f o.memory, o.revisions⟩

variable {f : τ → σ} {W : Visitor τ} {V : Visitor σ}

/-- One question. -/
theorem Visitor.Along.ask (h : Visitor.Along f W V) (v : Value) (owner : Option Value) (t : Trail τ) :
    V.ask v owner (t.map f) = ((W.ask v owner t).1, (W.ask v owner t).2.map f) := by
  unfold Visitor.ask
  have henter : V.enter v owner (t.map f).memory
      = ((W.enter v owner t.memory).1, f (W.enter v owner t.memory).2) := h v owner t.memory
  rw [henter]
  rcases W.enter v owner t.memory with ⟨fault | answer, memory⟩ <;> rfl

/-- A question to `V` is a question to `W`. -/
theorem Visitor.Along.exists_ask (h : Visitor.Along f W V) {v : Value} {owner : Option Value} {t : Trail τ}
    {u : Trail σ} {answer : Except Fault Answer} (hask : V.ask v owner (t.map f) = (answer, u)) :
    ∃ t', W.ask v owner t = (answer, t') ∧ t'.map f = u := by
  rw [h.ask] at hask
  obtain ⟨hanswer, hu⟩ := Prod.mk.inj hask
  exact ⟨(W.ask v owner t).2, by rw [← hanswer], hu⟩

namespace Walk

variable {n : Nat} {task : Task} {qs : List Question}

/-- **One walk goes the way of the other**, with the same questions. -/
theorem Runs.lift (h : Visitor.Along f W V) {u : Trail σ} {w : Walked σ task.Result} (hw : Runs V n task u qs w)
    {t : Trail τ} (ht : t.map f = u) : ∃ w', Runs W n task t qs w' ∧ w'.map f = w := by
  induction hw generalizing t with subst ht
  | exhausted => exact ⟨_, .exhausted, rfl⟩
  | object _ ih =>
    obtain ⟨w', hw', rfl⟩ := ih rfl
    refine ⟨_, .object hw', ?_⟩
    rw [Walked.map, apply_ite (Trail.map f)]
    rfl
  | notObject hobj => exact ⟨_, .notObject hobj, rfl⟩
  | noFields => exact ⟨_, .noFields, rfl⟩
  | fieldStop _ hfault ih =>
    obtain ⟨here', hhere, rfl⟩ := ih rfl
    exact ⟨_, .fieldStop hhere hfault, rfl⟩
  | field _ hfault _ ih ih' =>
    obtain ⟨here', hhere, rfl⟩ := ih rfl
    obtain ⟨later', hlater, rfl⟩ := ih' rfl
    exact ⟨_, .field hhere hfault hlater, rfl⟩
  | metadata hkey => exact ⟨_, .metadata hkey, rfl⟩
  | slotList hkey hcurrent _ ih =>
    obtain ⟨w', hw', rfl⟩ := ih rfl
    refine ⟨_, .slotList hkey hcurrent hw', ?_⟩
    rw [Walked.map, apply_ite (Trail.map f)]
    rfl
  | slotOther hkey hcurrent hlist hnode => exact ⟨_, .slotOther hkey hcurrent hlist hnode, rfl⟩
  | slotFault hkey hcurrent hnode hask =>
    obtain ⟨t', hask', rfl⟩ := h.exists_ask hask
    exact ⟨_, .slotFault hkey hcurrent hnode hask', rfl⟩
  | slotKeep hkey hcurrent hnode hask _ ih =>
    obtain ⟨t', hask', rfl⟩ := h.exists_ask hask
    obtain ⟨w', hw', rfl⟩ := ih rfl
    exact ⟨_, .slotKeep hkey hcurrent hnode hask' hw', rfl⟩
  | slotNode hkey hcurrent hnode hask _ ih =>
    obtain ⟨t', hask', rfl⟩ := h.exists_ask hask
    obtain ⟨w', hw', rfl⟩ := ih rfl
    exact ⟨_, .slotNode hkey hcurrent hnode hask' hw', rfl⟩
  | slotSplice hkey hcurrent hnode hask =>
    obtain ⟨t', hask', rfl⟩ := h.exists_ask hask
    exact ⟨_, .slotSplice hkey hcurrent hnode hask', rfl⟩
  | noItems => exact ⟨_, .noItems, rfl⟩
  | itemOther hnode _ ih =>
    obtain ⟨w', hw', rfl⟩ := ih rfl
    exact ⟨_, .itemOther hnode hw', rfl⟩
  | itemFault hnode hcurrent hask =>
    obtain ⟨t', hask', rfl⟩ := h.exists_ask hask
    exact ⟨_, .itemFault hnode hcurrent hask', rfl⟩
  | itemKeepStop hnode hcurrent hask _ hfault ih =>
    obtain ⟨t', hask', rfl⟩ := h.exists_ask hask
    obtain ⟨w', hw', rfl⟩ := ih rfl
    exact ⟨_, .itemKeepStop hnode hcurrent hask' hw' hfault, rfl⟩
  | itemKeep hnode hcurrent hask _ hfault _ ih ih' =>
    obtain ⟨t', hask', rfl⟩ := h.exists_ask hask
    obtain ⟨w', hw', rfl⟩ := ih rfl
    obtain ⟨later', hlater, rfl⟩ := ih' rfl
    exact ⟨_, .itemKeep hnode hcurrent hask' hw' hfault hlater, rfl⟩
  | itemNodeStop hnode hcurrent hask _ hfault ih =>
    obtain ⟨t', hask', rfl⟩ := h.exists_ask hask
    obtain ⟨w', hw', rfl⟩ := ih rfl
    exact ⟨_, .itemNodeStop hnode hcurrent hask' hw' hfault, rfl⟩
  | itemNode hnode hcurrent hask _ hfault _ ih ih' =>
    obtain ⟨t', hask', rfl⟩ := h.exists_ask hask
    obtain ⟨w', hw', rfl⟩ := ih rfl
    obtain ⟨later', hlater, rfl⟩ := ih' rfl
    exact ⟨_, .itemNode hnode hcurrent hask' hw' hfault hlater, rfl⟩
  | itemLost hnode hcurrent hask hsplit =>
    obtain ⟨t', hask', rfl⟩ := h.exists_ask hask
    exact ⟨_, .itemLost hnode hcurrent hask' hsplit, rfl⟩
  | itemSpliceStop hnode hcurrent hask hsplit _ hfault ih =>
    obtain ⟨t', hask', rfl⟩ := h.exists_ask hask
    obtain ⟨w', hw', rfl⟩ := ih rfl
    exact ⟨_, .itemSpliceStop hnode hcurrent hask' hsplit hw' hfault, rfl⟩
  | itemSplice hnode hcurrent hask hsplit _ hfault _ ih ih' =>
    obtain ⟨t', hask', rfl⟩ := h.exists_ask hask
    obtain ⟨w', hw', rfl⟩ := ih rfl
    obtain ⟨later', hlater, rfl⟩ := ih' rfl
    exact ⟨_, .itemSplice hnode hcurrent hask' hsplit hw' hfault hlater, rfl⟩
  | noNodes => exact ⟨_, .noNodes, rfl⟩
  | nodeStop hcurrent _ hfault ih =>
    obtain ⟨w', hw', rfl⟩ := ih rfl
    exact ⟨_, .nodeStop hcurrent hw' hfault, rfl⟩
  | node hcurrent _ hfault _ ih ih' =>
    obtain ⟨w', hw', rfl⟩ := ih rfl
    obtain ⟨later', hlater, rfl⟩ := ih' rfl
    exact ⟨_, .node hcurrent hw' hfault hlater, rfl⟩

/-- The functions of the walk, with the one visitor and with the other. -/
theorem run_map (h : Visitor.Along f W V) (n : Nat) (task : Task) (t : Trail τ) :
    task.run V n (t.map f) = (task.run W n t).map f := by
  obtain ⟨qs, w, hw⟩ := exists_runs V n task (t.map f)
  obtain ⟨w', hw', rfl⟩ := hw.lift h rfl
  rw [hw.eq_run, hw'.eq_run]

/-- What every question keeps, each part of the walk keeps. -/
theorem Runs.keeps {t : Trail τ} {P : τ → Prop} (hP : ∀ v owner m, P m → P (W.enter v owner m).2)
    {w : Walked τ task.Result} (hw : Runs W n task t qs w) (ht : P t.memory) : P w.trail.memory := by
  rw [hw.memory_eq]
  exact List.foldlRecOn qs _ ht fun m hm q _ => hP q.1 q.2 m hm

end Walk

/-- **Walks in lockstep.** Two visitors whose memories correspond leave the same tree, with the same fault, and their
memories correspond at the end. -/
theorem walk_map (h : Visitor.Along f W V) (fuel : Nat) (tree : Value) (m : τ) :
    walk V fuel tree (f m) = (walk W fuel tree m).map f := by
  simp only [walk]
  generalize (tree.stamp (tree.topMark + 1)).1 = placed
  generalize (tree.stamp (tree.topMark + 1)).2 = next
  have hask := h.ask placed none ⟨m, next, []⟩
  rw [Trail.map] at hask
  rw [hask]
  rcases W.ask placed none ⟨m, next, []⟩ with ⟨fault | answer, t⟩
  · rfl
  · cases answer with
    | keep =>
      have hwalk := Walk.run_map h fuel (.children placed) t
      simp only [Walk.Task.run] at hwalk
      dsimp only
      rw [hwalk]
      rfl
    | node n =>
      have hwalk := Walk.run_map h fuel (.children n) t
      simp only [Walk.Task.run] at hwalk
      dsimp only
      rw [hwalk]
      rfl
    | splice request => rfl

/-- **What every question keeps, the walk keeps.** -/
theorem walk_keeps {P : σ → Prop} (hP : ∀ v owner m, P m → P (V.enter v owner m).2) (fuel : Nat) (tree : Value) {m : σ}
    (hm : P m) : P (walk V fuel tree m).memory := by
  simp only [walk]
  generalize (tree.stamp (tree.topMark + 1)).1 = placed
  generalize (tree.stamp (tree.topMark + 1)).2 = next
  rcases hask : V.ask placed none ⟨m, next, []⟩ with ⟨fault | answer, t⟩
  · have ht : P t.memory := Visitor.memory_ask hask ▸ hP _ _ _ hm
    exact ht
  · have ht : P t.memory := Visitor.memory_ask hask ▸ hP _ _ _ hm
    have hchildren (v : Value) : P (Walk.children V fuel v t).trail.memory := by
      obtain ⟨qs, hw⟩ := Walk.Task.runs V fuel (.children v) t
      exact hw.keeps hP ht
    cases answer with
    | keep => exact hchildren placed
    | node n => exact hchildren n
    | splice request => exact ht

/-! ## Visitors that answer alike up to the end -/

/-- If a memory meets `P` after a question to `V`, it did so before, and `U` would have answered the same. -/
def Visitor.AgreeUpTo (P : σ → Prop) (U V : Visitor σ) : Prop :=
  ∀ v owner m, P (V.enter v owner m).2 → P m ∧ U.enter v owner m = V.enter v owner m

variable {P : σ → Prop} {U : Visitor σ}

/-- One question. -/
theorem Visitor.AgreeUpTo.ask (h : Visitor.AgreeUpTo P U V) {v : Value} {owner : Option Value} {t t' : Trail σ}
    {answer : Except Fault Answer} (hask : V.ask v owner t = (answer, t')) (hP : P t'.memory) :
    U.ask v owner t = (answer, t') ∧ P t.memory := by
  rw [Visitor.memory_ask hask] at hP
  obtain ⟨hbefore, hsame⟩ := h v owner t.memory hP
  exact ⟨by rw [← hask, Visitor.ask, hsame, Visitor.ask], hbefore⟩

/-- **The walk with the one visitor is the walk with the other**, if the memory meets `P` at the end. From there the
condition is carried back, from each part to the one before it. -/
theorem Walk.Runs.agree (h : Visitor.AgreeUpTo P U V) {n : Nat} {task : Task} {t : Trail σ} {qs : List Question}
    {w : Walked σ task.Result} (hw : Runs V n task t qs w) (hP : P w.trail.memory) :
    Runs U n task t qs w ∧ P t.memory := by
  induction hw with
  | exhausted => exact ⟨.exhausted, hP⟩
  | @object n mark fs t qs w _ ih =>
    have hP : P w.trail.memory := by cases hedit : w.edited <;> rw [hedit] at hP <;> exact hP
    exact (ih hP).imp_left .object
  | notObject hobj => exact ⟨.notObject hobj, hP⟩
  | noFields => exact ⟨.noFields, hP⟩
  | fieldStop _ hfault ih => exact (ih hP).imp_left (.fieldStop · hfault)
  | field _ hfault _ ih ih' =>
    obtain ⟨hlater, hP⟩ := ih' hP
    exact (ih hP).imp_left (.field · hfault hlater)
  | metadata hkey => exact ⟨.metadata hkey, hP⟩
  | @slotList n owner key v t mark xs qs w hkey hcurrent _ ih =>
    have hP : P w.trail.memory := by cases hedit : w.edited <;> rw [hedit] at hP <;> exact hP
    exact (ih hP).imp_left (.slotList hkey hcurrent)
  | slotOther hkey hcurrent hlist hnode => exact ⟨.slotOther hkey hcurrent hlist hnode, hP⟩
  | slotFault hkey hcurrent hnode hask => exact (h.ask hask hP).imp_left (.slotFault hkey hcurrent hnode)
  | slotKeep hkey hcurrent hnode hask _ ih =>
    obtain ⟨hchildren, hP⟩ := ih hP
    exact (h.ask hask hP).imp_left (.slotKeep hkey hcurrent hnode · hchildren)
  | slotNode hkey hcurrent hnode hask _ ih =>
    obtain ⟨hchildren, hP⟩ := ih hP
    exact (h.ask hask hP).imp_left (.slotNode hkey hcurrent hnode · hchildren)
  | slotSplice hkey hcurrent hnode hask => exact (h.ask hask hP).imp_left (.slotSplice hkey hcurrent hnode)
  | noItems => exact ⟨.noItems, hP⟩
  | itemOther hnode _ ih => exact (ih hP).imp_left (.itemOther hnode)
  | itemFault hnode hcurrent hask => exact (h.ask hask hP).imp_left (.itemFault hnode hcurrent)
  | itemKeepStop hnode hcurrent hask _ hfault ih =>
    obtain ⟨hchildren, hP⟩ := ih hP
    exact (h.ask hask hP).imp_left (.itemKeepStop hnode hcurrent · hchildren hfault)
  | itemKeep hnode hcurrent hask _ hfault _ ih ih' =>
    obtain ⟨hlater, hP⟩ := ih' hP
    obtain ⟨hchildren, hP⟩ := ih hP
    exact (h.ask hask hP).imp_left (.itemKeep hnode hcurrent · hchildren hfault hlater)
  | itemNodeStop hnode hcurrent hask _ hfault ih =>
    obtain ⟨hchildren, hP⟩ := ih hP
    exact (h.ask hask hP).imp_left (.itemNodeStop hnode hcurrent · hchildren hfault)
  | itemNode hnode hcurrent hask _ hfault _ ih ih' =>
    obtain ⟨hlater, hP⟩ := ih' hP
    obtain ⟨hchildren, hP⟩ := ih hP
    exact (h.ask hask hP).imp_left (.itemNode hnode hcurrent · hchildren hfault hlater)
  | itemLost hnode hcurrent hask hsplit => exact (h.ask hask hP).imp_left (.itemLost hnode hcurrent · hsplit)
  | itemSpliceStop hnode hcurrent hask hsplit _ hfault ih =>
    obtain ⟨heach, hP⟩ := ih hP
    exact (h.ask hask hP).imp_left (.itemSpliceStop hnode hcurrent · hsplit heach hfault)
  | itemSplice hnode hcurrent hask hsplit _ hfault _ ih ih' =>
    obtain ⟨hlater, hP⟩ := ih' hP
    obtain ⟨heach, hP⟩ := ih hP
    exact (h.ask hask hP).imp_left (.itemSplice hnode hcurrent · hsplit heach hfault hlater)
  | noNodes => exact ⟨.noNodes, hP⟩
  | nodeStop hcurrent _ hfault ih => exact (ih hP).imp_left (.nodeStop hcurrent · hfault)
  | node hcurrent _ hfault _ ih ih' =>
    obtain ⟨hlater, hP⟩ := ih' hP
    exact (ih hP).imp_left (.node hcurrent · hfault hlater)

/-- Whole walks. -/
theorem walk_agree (h : Visitor.AgreeUpTo P U V) (fuel : Nat) (tree : Value) (m : σ)
    (hP : P (walk V fuel tree m).memory) : walk U fuel tree m = walk V fuel tree m := by
  simp only [walk] at hP ⊢
  generalize (tree.stamp (tree.topMark + 1)).1 = placed at hP ⊢
  generalize (tree.stamp (tree.topMark + 1)).2 = next at hP ⊢
  have hchildren (v : Value) (t : Trail σ) (hP : P (Walk.children V fuel v t).trail.memory) :
      Walk.children U fuel v t = Walk.children V fuel v t ∧ P t.memory := by
    obtain ⟨qs, hw⟩ := Walk.Task.runs V fuel (.children v) t
    exact (hw.agree h hP).imp_left fun hw' => hw'.eq_run
  rcases hask : V.ask placed none ⟨m, next, []⟩ with ⟨fault | answer, t⟩
  · rw [hask] at hP
    rw [(h.ask hask hP).1]
  · rw [hask] at hP
    cases answer with
    | keep =>
      obtain ⟨heq, hP⟩ := hchildren placed t hP
      rw [(h.ask hask hP).1]
      dsimp only
      rw [heq]
    | node x =>
      obtain ⟨heq, hP⟩ := hchildren x t hP
      rw [(h.ask hask hP).1]
      dsimp only
      rw [heq]
    | splice r => rw [(h.ask hask hP).1]

end EsmLift
