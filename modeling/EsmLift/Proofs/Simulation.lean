import EsmLift.Proofs.Placement

/-!
# `Proofs.Simulation` — the walk in place is the recursion

Each function of the walk is compared with its counterpart in the recursion, on the same values without their marks. The
walk is given an intact part of a tree, and a visitor that looks at contents only and uses no object twice. If the
recursion has a result, the walk has the same one for every fuel that is large enough, and what it leaves behind is as
`Passed` says; so the next part can be compared in its turn.

## Contents

* `Eventually`, `Walk.EndsWith`: what holds for every fuel that is large enough;
* `Asked`, `Visitor.asked`: one question, with and without marks;
* `Simulates`, `Simulates.follow`: a part of the walk, and one part after another;
* `Walk.each_simulates`, `Walk.items_simulates`, `Walk.slot_simulates`, `Walk.fields_simulates`, `Walk.below_simulates`;
* `walk_refines_recursion`: the walk from the root.
-/

namespace EsmLift

open Value

/-! ## Enough fuel -/

/-- The property holds for every fuel that is large enough. -/
def Eventually (P : Nat → Prop) : Prop := ∃ enough, ∀ n, enough ≤ n → P n

namespace Eventually

variable {P Q R : Nat → Prop}

theorem always (h : ∀ n, P n) : Eventually P := ⟨0, fun n _ => h n⟩

theorem of_succ (h : ∀ n, P (n + 1)) : Eventually P := by
  refine ⟨1, fun n hn => ?_⟩
  obtain ⟨k, rfl⟩ := Nat.exists_eq_add_of_le' hn
  exact h k

/-- A step that takes one unit of fuel. -/
theorem succ (h : Eventually P) (step : ∀ n, P n → Q (n + 1)) : Eventually Q := by
  obtain ⟨enough, h⟩ := h
  refine ⟨enough + 1, fun n hn => ?_⟩
  obtain ⟨k, rfl⟩ := Nat.exists_eq_add_of_le' hn
  exact step (k + enough) (h _ (Nat.le_add_left ..))

theorem and (h : Eventually P) (h' : Eventually Q) : Eventually fun n => P n ∧ Q n := by
  obtain ⟨enough, h⟩ := h
  obtain ⟨enough', h'⟩ := h'
  refine ⟨max enough enough', fun n hn => ⟨h n ?_, h' n ?_⟩⟩
  · exact Nat.le_trans (Nat.le_max_left ..) hn
  · exact Nat.le_trans (Nat.le_max_right ..) hn

theorem imp (h : Eventually P) (step : ∀ n, P n → Q n) : Eventually Q :=
  Exists.imp (fun _ h n hn => step n (h n hn)) h

end Eventually

variable {σ : Type} {V : Visitor σ} {alike : σ → σ → Prop}

/-- The walk ends with `w`, given enough fuel. -/
def Walk.EndsWith (V : Visitor σ) (task : Task) (t : Trail σ) (w : Walked σ task.Result) : Prop :=
  Eventually fun n => ∃ qs, Runs V n task t qs w

/-! ## One question -/

/-- A node is asked about with its marks, on the trail `t`, and without them. The answers are the same but for marks.
What the answer puts in is intact, and its marks are new or come from the node. -/
structure Asked (alike : σ → σ → Prop) (v : Value) (t t' : Trail σ) (answer answer' : Except Fault Answer)
    (m : σ) : Prop where
  revisions : t'.revisions = t.revisions
  next_le : t.next ≤ t'.next
  memory : alike t'.memory m
  erased : answer' = answer.map Answer.erase
  nodes : ∀ {a}, answer = .ok a → t'.Intact a.nodes ∧
    ∀ k, 0 < k → (marksItems a.nodes).count k ≤ (marksItems [v]).count k + given t.next t'.next k
  target : ∀ {request}, answer = .ok (.splice request) → request.target = v

/-- What an answer puts in is intact once it has its marks. -/
theorem Trail.Intact.stampItems {t t' : Trail σ} {v : Value} (hv : t.Intact [v]) (xs : List Value) (ht : t.Sound)
    (hown : ∀ k, 0 < k → (marksItems xs).count k ≤ v.marks.count k) (hrev : t'.revisions = t.revisions)
    (hnext : t'.next = (Value.stampItems t.next xs).2) :
    t'.Intact (Value.stampItems t.next xs).1 ∧ ∀ k, 0 < k →
      (marksItems (Value.stampItems t.next xs).1).count k ≤ (marksItems [v]).count k + given t.next t'.next k := by
  have hcount (k : Nat) (hk : 0 < k) : (marksItems (Value.stampItems t.next xs).1).count k
      ≤ (marksItems [v]).count k + given t.next t'.next k := by
    rw [(count_marks_stampItems hk t.next xs).2, marksItems_singleton, hnext]
    exact Nat.add_le_add_right (hown k hk) _
  have hle : t.next ≤ t'.next := hnext ▸ (count_marks_stampItems Nat.one_pos t.next xs).1
  -- a mark is one of the node, or it is new
  have horigin (k : Nat) (hk : 0 < k) (hmem : k ∈ marksItems (Value.stampItems t.next xs).1) :
      k ∈ marksItems [v] ∨ t.next ≤ k ∧ k < t'.next := mem_or_given (hcount k hk) hmem
  refine ⟨⟨placed_stampItems ht.pos xs, ?_, ?_, ?_⟩, hcount⟩
  · intro k hmem
    rcases Nat.eq_zero_or_pos k with rfl | hk
    · exact Nat.lt_of_lt_of_le ht.pos hle
    · rcases horigin k hk hmem with hin | hnew
      · exact Nat.lt_of_lt_of_le (hv.bounded k hin) hle
      · exact hnew.2
  · intro k hk
    have hc := hcount k hk
    have honce := hv.once k hk
    rw [given] at hc
    split at hc
    · rename_i hnew
      have hnot : k ∉ marksItems [v] := fun hin => absurd (hv.bounded k hin) (Nat.not_lt.mpr hnew.1)
      rw [List.count_eq_zero.mpr hnot] at hc
      omega
    · omega
  · intro k hmem
    rw [hrev]
    rcases Nat.eq_zero_or_pos k with rfl | hk
    · exact ht.lookup_zero
    · exact (horigin k hk hmem).elim (hv.unedited k) fun hnew => ht.fresh k hnew.1

/-- **One question.** -/
theorem Visitor.asked (hblind : V.Blind alike) (hfair : V.Fair) {v : Value} {owner : Option Value} {t t' : Trail σ}
    {m m' : σ} {answer answer' : Except Fault Answer} (ht : t.Sound) (hv : t.Intact [v]) (hm : alike t.memory m)
    (hask : V.ask v owner t = (answer, t')) (henter : V.enter v.erase (owner.map erase) m = (answer', m')) :
    Asked alike v t t' answer answer' m' := by
  obtain ⟨hrev, hle⟩ := Visitor.ask_keeps hask
  obtain ⟨hanswer, hmemory⟩ := hblind v owner t.memory m hm
  rw [henter] at hanswer hmemory
  dsimp only at hanswer hmemory
  have hunshared : v.Unshared := fun k hk => marksItems_singleton v ▸ hv.once k hk
  unfold Visitor.ask at hask
  rcases hv' : V.enter v owner t.memory with ⟨fault | a, memory⟩
  · rw [hv'] at hask hanswer hmemory
    cases hask
    exact ⟨rfl, hle, hmemory, hanswer, nofun, nofun⟩
  · rw [hv'] at hask hanswer hmemory
    dsimp only at hask hanswer hmemory
    have hown := hfair.own hunshared (congrArg Prod.fst hv')
    cases a with
    | keep =>
      cases hask
      exact ⟨rfl, hle, hmemory, hanswer, fun h => by
        cases h
        exact ⟨⟨nofun, nofun, fun _ _ => Nat.zero_le 1, nofun⟩, fun _ _ => Nat.zero_le _⟩, nofun⟩
    | node n =>
      cases hask
      refine ⟨rfl, hle, hmemory, ?_, fun h => ?_, nofun⟩
      · rw [hanswer]
        exact congrArg (fun e => Except.ok (Answer.node e)) (erase_stamp t.next n).symm
      · cases h
        exact hv.stampItems [n] ht hown rfl rfl
    | splice request =>
      obtain ⟨target, nodes⟩ := request
      obtain rfl : target = v := hfair.here (congrArg Prod.fst hv')
      have hstamp : Answer.stamp t.next (.splice ⟨target, nodes⟩)
          = (.splice ⟨target, (stampItems t.next nodes).1⟩, (stampItems t.next nodes).2) := by
        simp only [Answer.stamp, stamp_of_placed t.next target (hv.placed target List.mem_cons_self)]
      rw [hstamp] at hask
      cases hask
      refine ⟨rfl, hle, hmemory, ?_, fun h => ?_, fun h => ?_⟩
      · have herase : (stampItems t.next nodes).1.map erase = nodes.map erase := by
          rw [← eraseItems_eq_map, ← eraseItems_eq_map, erase_stampItems]
        rw [hanswer]
        exact congrArg (fun e => Except.ok (Answer.splice ⟨target.erase, e⟩)) herase.symm
      · cases h
        exact hv.stampItems nodes ht hown rfl rfl
      · cases h
        rfl

/-! ## Parts of the walk -/

/-- The walk `w` through the values `xs`, from the trail `t`, ends like the recursion; `parts` are the values in what
stands there now, and `bare` takes the marks off it. -/
structure Simulates (alike : σ → σ → Prop) {α : Type} (parts : α → List Value) (bare : α → α) (xs : List Value)
    (t : Trail σ) (w : Walked σ α) (r : Rewritten σ α) : Prop where
  passed : Passed t w.trail xs (parts w.value)
  value : bare w.value = r.value
  fault : w.fault = r.fault
  memory : alike w.trail.memory r.memory

/-- The fields of an object without their marks. -/
def bareFields (fs : Fields) : Fields := fs.map fun f => (f.1, f.2.erase)

namespace Simulates

variable {α : Type} {parts : α → List Value} {bare : α → α} {xs ys : List Value} {t t' : Trail σ} {w : Walked σ α}
  {r : Rewritten σ α}

/-- Nothing was edited. -/
theorem same {a : α} {edited : Bool} {fault : Option Fault} {m : σ} (ht : t.Sound) (hi : t.Intact (parts a))
    (hrev : t'.revisions = t.revisions) (hle : t.next ≤ t'.next) (hm : alike t'.memory m) :
    Simulates alike parts bare (parts a) t ⟨a, edited, fault, t'⟩ ⟨bare a, fault, m⟩ :=
  ⟨.same ht hi hrev hle, rfl, rfl, hm⟩

/-- The walk through what an answer put in. -/
theorem rebase (h : Simulates alike parts bare ys t' w r) (hrev : t'.revisions = t.revisions) (hle : t.next ≤ t'.next)
    (hcount : ∀ k, 0 < k → (marksItems ys).count k ≤ (marksItems xs).count k + given t.next t'.next k) :
    Simulates alike parts bare xs t w r :=
  ⟨h.passed.rebase hrev hle hcount, h.value, h.fault, h.memory⟩

/-- One node, as an item of a list. -/
theorem single {v : Value} {w : Walked σ Value} {r : Rewritten σ Value} (h : Simulates alike ([·]) erase [v] t w r)
    (edited : Bool) :
    Simulates alike id (List.map erase) [v] t ⟨[w.value], edited, w.fault, w.trail⟩ (r.map ([·])) :=
  ⟨h.passed, congrArg ([·]) h.value, h.fault, h.memory⟩

/-- **One part after another.** The first part was stopped, and the rest stays as it is; or the walk goes on. -/
theorem follow {γ : Type} {parts : List γ → List Value} {bare : List γ → List γ}
    (hparts : ∀ a b, parts (a ++ b) = parts a ++ parts b) (hbare : ∀ a b, bare (a ++ b) = bare a ++ bare b)
    {rest : List γ} {w : Walked σ (List γ)} {first r : Rewritten σ (List γ)}
    {next : σ → Option (Rewritten σ (List γ))} {P : Walked σ (List γ) → Prop}
    (h : Simulates alike parts bare xs t w first) (hi : t.Intact (xs ++ parts rest))
    (hr : first.follow (bare rest) next = some r)
    (hnext : ∀ later, w.trail.Sound → w.trail.Intact (parts rest) → next first.memory = some later →
      ∃ w', P w' ∧ Simulates alike parts bare (parts rest) w.trail w' later) :
    (∃ fault, w.fault = some fault ∧ ∀ edited,
      Simulates alike parts bare (xs ++ parts rest) t ⟨w.value ++ rest, edited, some fault, w.trail⟩ r) ∨
    (w.fault = none ∧ ∃ w', P w' ∧ ∀ edited,
      Simulates alike parts bare (xs ++ parts rest) t ⟨w.value ++ w'.value, edited, w'.fault, w'.trail⟩ r) := by
  unfold Rewritten.follow at hr
  cases hfault : first.fault with
  | some fault =>
    rw [hfault] at hr
    cases hr
    refine .inl ⟨fault, h.fault.trans hfault, fun edited => ⟨?_, ?_, rfl, h.memory⟩⟩
    · rw [hparts]
      exact h.passed.stop hi
    · rw [hbare, h.value]
  | none =>
    rw [hfault] at hr
    obtain ⟨later, hlater, rfl⟩ := Option.map_eq_some_iff.mp hr
    obtain ⟨w', hP, hw'⟩ := hnext later h.passed.sound (h.passed.intact hi) hlater
    refine .inr ⟨h.fault.trans hfault, w', hP, fun edited => ⟨?_, ?_, hw'.fault, hw'.memory⟩⟩
    · rw [hparts]
      exact h.passed.append hw'.passed hi
    · rw [hbare, h.value, hw'.value]
      rfl

/-- What a walk leaves in one place is up to date, so it is read back as it is. -/
theorem current {w : Walked σ Value} {r : Rewritten σ Value} (h : Simulates alike ([·]) erase xs t w r) :
    (w.trail.current w.value).erase = r.value := by
  have hcurrent : w.trail.current w.value = w.value := (h.passed.settled _ List.mem_cons_self).refresh
  rw [hcurrent, h.value]

end Simulates

/-- The walk through the children of a node ends like `descend`, given enough fuel. -/
def Descends (V : Visitor σ) (alike : σ → σ → Prop) (descend : Value → σ → Option (Rewritten σ Value)) : Prop :=
  ∀ {v : Value} {t : Trail σ} {m : σ} {r : Rewritten σ Value}, t.Sound → t.Intact [v] → alike t.memory m →
    descend v.erase m = some r →
    ∃ w, Walk.EndsWith V (.children v) t w ∧ Simulates alike ([·]) erase [v] t w r

namespace Walk

variable {descend : Value → σ → Option (Rewritten σ Value)}

/-- New statements. -/
theorem each_simulates (hdescend : Descends V alike descend) {nodes : List Value} {t : Trail σ} {m : σ}
    {r : Rewritten σ (List Value)} (ht : t.Sound) (hi : t.Intact nodes) (hm : alike t.memory m)
    (hr : Recursion.each descend (nodes.map erase) m = some r) :
    ∃ w, EndsWith V (.each nodes) t w ∧ Simulates alike id (List.map erase) nodes t w r := by
  induction nodes generalizing t m r with
  | nil =>
    cases hr
    exact ⟨⟨[], false, none, t⟩, .of_succ fun n => ⟨[], .noNodes⟩, .same (a := []) ht hi rfl (Nat.le_refl _) hm⟩
  | cons v rest ih =>
    obtain ⟨here, hhere, hfollow⟩ := Option.bind_eq_some_iff.mp hr
    have hv : t.Intact ([v] ++ rest) := hi
    have hcurrent := hv.left.current
    obtain ⟨w, hw, hsim⟩ := hdescend ht hv.left hm hhere
    rcases (hsim.single false).follow (fun _ _ => rfl) (fun _ _ => List.map_append) hv hfollow
      (fun later ht' hi' hlater => ih ht' hi' hsim.memory hlater) with
      ⟨fault, hfault, hend⟩ | ⟨hfault, w', hw', hend⟩
    · exact ⟨_, hw.succ fun n ⟨_, hn⟩ => ⟨_, .nodeStop hcurrent hn hfault⟩, hend false⟩
    · exact ⟨_, (hw.and hw').succ fun n ⟨⟨_, hn⟩, _, hn'⟩ => ⟨_, .node hcurrent hn hfault hn'⟩, hend false⟩

/-- In the walk through a list, `w` takes the place of the item `v` between `done` and `rest`. The walk is stopped there,
or goes on with `rest`. -/
structure Resumes (V : Visitor σ) (owner : List Value → Value) (done : List Value) (v : Value) (rest : List Value)
    (t : Trail σ) (w : Walked σ (List Value)) (n : Nat) : Prop where
  stop : ∀ fault, w.fault = some fault → ∃ qs, Runs V (n + 1) (.items owner done (v :: rest)) t qs
    ⟨done ++ (w.value ++ rest), w.edited, some fault, w.trail⟩
  next : w.fault = none → ∀ qs later, Runs V n (.items owner (done ++ w.value) rest) w.trail qs later →
    ∃ qs', Runs V (n + 1) (.items owner done (v :: rest)) t qs' { later with edited := w.edited || later.edited }

/-- An item of a list, whatever the visitor answers. -/
theorem item_simulates (hblind : V.Blind alike) (hfair : V.Fair) (hdescend : Descends V alike descend)
    {owner : List Value → Value} {done rest : List Value} {v : Value} {t : Trail σ} {m : σ}
    {r : Rewritten σ (List Value)} (ht : t.Sound) (hi : t.Intact [v]) (hm : alike t.memory m)
    (hdone : ∀ k ∈ v.marks, 0 < k → k ∉ marksItems done)
    (hr : Recursion.item V descend (owner (done ++ v :: rest)).erase v.erase m = some r) :
    ∃ w, Simulates alike id (List.map erase) [v] t w r ∧ Eventually (Resumes V owner done v rest t w) := by
  rw [Recursion.item, isNode_erase] at hr
  cases hnode : v.isNode with
  | false =>
    rw [hnode] at hr
    cases hr
    refine ⟨⟨[v], false, none, t⟩, .same (a := [v]) ht hi rfl (Nat.le_refl _) hm, .always fun n => ⟨?_, ?_⟩⟩
    · intro fault hfault
      cases hfault
    · exact fun _ qs later hlater => ⟨qs, .itemOther hnode hlater⟩
  | true =>
    rw [hnode, if_pos rfl] at hr
    rcases hask : V.ask v (some (owner (done ++ v :: rest))) t with ⟨answer, t'⟩
    rcases henter : V.enter v.erase (some (owner (done ++ v :: rest)).erase) m with ⟨answer', m'⟩
    have hasked := Visitor.asked hblind hfair ht hi hm hask henter
    have ht' := ht.later hasked.revisions hasked.next_le
    have hsame (k : Nat) (_ : 0 < k) : (marksItems [v]).count k ≤ (marksItems [v]).count k + given t.next t'.next k :=
      Nat.le_add_right _ _
    rw [henter, hasked.erased] at hr
    rcases answer with fault | answer
    · cases hr
      refine ⟨⟨[v], false, some fault, t'⟩, .same (a := [v]) ht hi hasked.revisions hasked.next_le hasked.memory,
        .always fun n => ⟨fun fault hfault => ?_, fun hfault => ?_⟩⟩
      · cases hfault
        exact ⟨_, .itemFault hnode hi.current hask⟩
      · cases hfault
    · cases answer with
      | keep =>
        obtain ⟨here, hhere, rfl⟩ := Option.map_eq_some_iff.mp hr
        obtain ⟨w, hw, hsim⟩ := hdescend ht' (hi.later hasked.revisions hasked.next_le) hasked.memory hhere
        refine ⟨_, (hsim.single false).rebase hasked.revisions hasked.next_le hsame, hw.imp fun n hends => ?_⟩
        obtain ⟨_, hn⟩ := hends
        constructor
        · exact fun fault hfault => ⟨_, .itemKeepStop hnode hi.current hask hn hfault⟩
        · exact fun hfault qs later hlater => ⟨_, .itemKeep hnode hi.current hask hn hfault hlater⟩
      | node n =>
        obtain ⟨hnodes, hcount⟩ := hasked.nodes rfl
        obtain ⟨here, hhere, rfl⟩ := Option.map_eq_some_iff.mp hr
        obtain ⟨w, hw, hsim⟩ := hdescend ht' hnodes hasked.memory hhere
        refine ⟨_, (hsim.single true).rebase hasked.revisions hasked.next_le hcount, hw.imp fun n hends => ?_⟩
        obtain ⟨_, hn⟩ := hends
        constructor
        · exact fun fault hfault => ⟨_, .itemNodeStop hnode hi.current hask hn hfault⟩
        · exact fun hfault qs later hlater => ⟨_, .itemNode hnode hi.current hask hn hfault hlater⟩
      | splice request =>
        obtain ⟨target, nodes⟩ := request
        obtain rfl : target = v := hasked.target rfl
        obtain ⟨hnodes, hcount⟩ : t'.Intact nodes ∧ _ := hasked.nodes rfl
        obtain ⟨w, hw, hsim⟩ := each_simulates hdescend ht' hnodes hasked.memory hr
        have hmark := (hi.placed target List.mem_cons_self).mark_pos hnode
        have hlocate : Replacement.split ⟨target, nodes⟩ (done ++ target :: rest) = .ok (done, rest) := by
          have hnot := hdone target.mark (mark_mem_marks hnode) hmark
          rw [Replacement.split, Replacement.locate_append hnode (Nat.ne_of_gt hmark) hnot]
        have hspliced : Simulates alike id (List.map erase) nodes t' { w with edited := true } r :=
          ⟨hsim.passed, hsim.value, hsim.fault, hsim.memory⟩
        refine ⟨_, hspliced.rebase hasked.revisions hasked.next_le hcount, hw.imp fun n hends => ?_⟩
        obtain ⟨_, hn⟩ := hends
        constructor
        · intro fault hfault
          have hstop := Runs.itemSpliceStop hnode hi.current hask hlocate hn hfault
          rw [List.append_assoc] at hstop
          exact ⟨_, hstop⟩
        · exact fun hfault qs later hlater => ⟨_, .itemSplice hnode hi.current hask hlocate hn hfault hlater⟩

/-- **The items of a list.** The items in `done` hold nothing of those in `todo`. -/
theorem items_simulates (hblind : V.Blind alike) (hfair : V.Fair) (hdescend : Descends V alike descend)
    (owner : List Value → Value) {owner' : List Value → Value} (howner : ∀ ys, (owner ys).erase = owner' (ys.map erase))
    (done todo : List Value) {t : Trail σ} {m : σ} {r : Rewritten σ (List Value)} (ht : t.Sound) (hi : t.Intact todo)
    (hm : alike t.memory m) (hdone : ∀ k ∈ marksItems todo, 0 < k → k ∉ marksItems done)
    (hr : Recursion.items V descend owner' (done.map erase) (todo.map erase) m = some r) :
    ∃ w, EndsWith V (.items owner done todo) t { w with value := done ++ w.value } ∧
      Simulates alike id (List.map erase) todo t w r := by
  induction todo generalizing done t m r with
  | nil =>
    cases hr
    refine ⟨⟨[], false, none, t⟩, .of_succ fun n => ⟨[], ?_⟩, .same (a := []) ht hi rfl (Nat.le_refl _) hm⟩
    rw [List.append_nil]
    exact .noItems
  | cons v rest ih =>
    obtain ⟨here, hhere, hfollow⟩ := Option.bind_eq_some_iff.mp hr
    have hv : t.Intact ([v] ++ rest) := hi
    rw [marksItems_cons] at hdone
    have howner' : owner' (done.map erase ++ v.erase :: rest.map erase) = (owner (done ++ v :: rest)).erase := by
      rw [howner, List.map_append, List.map_cons]
    rw [howner'] at hhere
    obtain ⟨w, hsim, hw⟩ := item_simulates hblind hfair hdescend ht hv.left hm
      (fun k hk => hdone k (List.mem_append_left _ hk)) hhere
    -- what took the place of the item holds nothing of the items that follow
    have hdone' : ∀ k ∈ marksItems rest, 0 < k → k ∉ marksItems (done ++ w.value) := by
      intro k hk hpos hmem
      rw [marksItems_append] at hmem
      rcases List.mem_append.mp hmem with hmem | hmem
      · exact hdone k (List.mem_append_right _ hk) hpos hmem
      · exact (hsim.passed.apart hv hpos hmem).2 hk
    have hvalue : done.map erase ++ here.value = (done ++ w.value).map erase := by
      rw [List.map_append, ← hsim.value]
    rw [hvalue] at hfollow
    rcases hsim.follow (fun _ _ => rfl) (fun _ _ => List.map_append) hv hfollow
      (fun later ht' hi' hlater => ih _ ht' hi' hsim.memory hdone' hlater) with
      ⟨fault, hfault, hend⟩ | ⟨hfault, w', hw', hend⟩
    · exact ⟨_, hw.succ fun n hn => hn.stop fault hfault, hend w.edited⟩
    · refine ⟨_, (hw.and hw').succ fun n ⟨hn, qs, hn'⟩ => ?_, hend (w.edited || w'.edited)⟩
      obtain ⟨qs', hitems⟩ := hn.next hfault qs _ hn'
      rw [List.append_assoc] at hitems
      exact ⟨qs', hitems⟩

/-- A node in a field, whatever the visitor answers. -/
theorem node_simulates (hblind : V.Blind alike) (hfair : V.Fair) (hdescend : Descends V alike descend)
    {owner : Value → Value} {key : String} {mark : Nat} {fs : Fields} {t : Trail σ} {m : σ} {r : Rewritten σ Value}
    (hk : Syntax.metadataKeys.contains key = false) (hnode : (Value.object mark fs).isNode = true) (ht : t.Sound)
    (hi : t.Intact [.object mark fs]) (hm : alike t.memory m)
    (hr : (match V.enter (Value.object mark fs).erase (some (owner (.object mark fs)).erase) m with
      | (.error fault, m) => some ⟨(Value.object mark fs).erase, some fault, m⟩
      | (.ok .keep, m) => descend (Value.object mark fs).erase m
      | (.ok (.node n), m) => descend n m
      | (.ok (.splice _), m) => some ⟨(Value.object mark fs).erase, some (.fieldSplice key), m⟩) = some r) :
    ∃ w, EndsWith V (.slot owner key (.object mark fs)) t w ∧
      Simulates alike ([·]) erase [.object mark fs] t w r := by
  rcases hask : V.ask (.object mark fs) (some (owner (.object mark fs))) t with ⟨answer, t'⟩
  rcases henter : V.enter (Value.object mark fs).erase (some (owner (.object mark fs)).erase) m with ⟨answer', m'⟩
  have hasked := Visitor.asked hblind hfair ht hi hm hask henter
  have ht' := ht.later hasked.revisions hasked.next_le
  rw [henter, hasked.erased] at hr
  rcases answer with fault | answer
  · cases hr
    exact ⟨_, .of_succ fun n => ⟨_, .slotFault hk hi.current hnode hask⟩,
      .same ht hi hasked.revisions hasked.next_le hasked.memory⟩
  · cases answer with
    | keep =>
      obtain ⟨w, hw, hsim⟩ := hdescend ht' (hi.later hasked.revisions hasked.next_le) hasked.memory hr
      refine ⟨w, hw.succ fun n ⟨_, hn⟩ => ⟨_, .slotKeep hk hi.current hnode hask hn⟩,
        hsim.rebase hasked.revisions hasked.next_le fun k _ => ?_⟩
      exact Nat.le_add_right _ _
    | node x =>
      obtain ⟨hnodes, hcount⟩ := hasked.nodes rfl
      obtain ⟨w, hw, hsim⟩ := hdescend ht' hnodes hasked.memory hr
      obtain ⟨hpassed, hvalue, hfault, hmemory⟩ := hsim.rebase hasked.revisions hasked.next_le hcount
      exact ⟨{ w with edited := true }, hw.succ fun n ⟨_, hn⟩ => ⟨_, .slotNode hk hi.current hnode hask hn⟩, hpassed,
        hvalue, hfault, hmemory⟩
    | splice request =>
      cases hr
      exact ⟨_, .of_succ fun n => ⟨_, .slotSplice hk hi.current hnode hask⟩,
        .same ht hi hasked.revisions hasked.next_le hasked.memory⟩

/-- **The value of a field.** -/
theorem slot_simulates (hblind : V.Blind alike) (hfair : V.Fair) (hdescend : Descends V alike descend)
    (owner : Value → Value) {owner' : Value → Value} (howner : ∀ w, (owner w).erase = owner' w.erase) {key : String}
    {v : Value} {t : Trail σ} {m : σ} {r : Rewritten σ Value} (ht : t.Sound) (hi : t.Intact [v])
    (hm : alike t.memory m) (hr : Recursion.slot V descend owner' key v.erase m = some r) :
    ∃ w, EndsWith V (.slot owner key v) t w ∧ Simulates alike ([·]) erase [v] t w r := by
  -- a value that is passed over
  have hpass (hslot : ∀ n, Runs V (n + 1) (.slot owner key v) t [] ⟨v, false, none, t⟩)
      (hr : some ⟨v.erase, none, m⟩ = some r) :
      ∃ w, EndsWith V (.slot owner key v) t w ∧ Simulates alike ([·]) erase [v] t w r := by
    cases hr
    exact ⟨_, .of_succ fun n => ⟨[], hslot n⟩, .same ht hi rfl (Nat.le_refl _) hm⟩
  unfold Recursion.slot at hr
  cases hk : Syntax.metadataKeys.contains key with
  | true =>
    rw [hk, if_pos rfl] at hr
    exact hpass (fun n => .metadata hk) hr
  | false =>
    rw [hk, if_neg Bool.false_ne_true] at hr
    cases v with
    | list mark xs =>
      rw [erase_list] at hr
      obtain ⟨inner, hinner, rfl⟩ := Option.map_eq_some_iff.mp hr
      obtain ⟨w, hw, hsim⟩ := items_simulates hblind hfair hdescend (fun ys => owner (.list mark ys))
        (fun ys => by rw [howner, erase_list]) [] xs ht hi.items hm (fun _ _ _ => List.not_mem_nil) hinner
      refine ⟨⟨.list mark w.value, false, w.fault, if w.edited then w.trail.recordList mark w.value else w.trail⟩,
        hw.succ fun n ⟨_, hn⟩ => ⟨_, .slotList hk hi.current hn⟩, hsim.passed.list hi w.edited, ?_, hsim.fault, ?_⟩
      · rw [erase_list, hsim.value]
        rfl
      · dsimp only
        split <;> exact hsim.memory
    | object mark fs =>
      rw [erase_object] at hr
      dsimp only at hr
      rw [← erase_object mark fs, isNode_erase] at hr
      cases hnode : (Value.object mark fs).isNode with
      | false =>
        rw [hnode] at hr
        exact hpass (fun n => .slotOther hk hi.current (by simp) hnode) hr
      | true =>
        rw [hnode, if_pos rfl, ← howner] at hr
        exact node_simulates hblind hfair hdescend hk hnode ht hi hm hr
    | _ => exact hpass (fun n => .slotOther hk hi.current (by simp) rfl) hr

/-- **The fields of an object.** -/
theorem fields_simulates (hblind : V.Blind alike) (hfair : V.Fair) (hdescend : Descends V alike descend) (mark : Nat)
    (done todo : Fields) {t : Trail σ} {m : σ} {r : Rewritten σ Fields} (ht : t.Sound)
    (hi : t.Intact (todo.map Prod.snd)) (hm : alike t.memory m)
    (hr : Recursion.fields V descend 0 (bareFields done) (bareFields todo) m = some r) :
    ∃ w, EndsWith V (.fields mark done todo) t w ∧
      Simulates alike (List.map Prod.snd) bareFields (todo.map Prod.snd) t w r := by
  induction todo generalizing done t m r with
  | nil =>
    cases hr
    exact ⟨⟨[], false, none, t⟩, .of_succ fun n => ⟨[], .noFields⟩, .same (a := []) ht hi rfl (Nat.le_refl _) hm⟩
  | cons f rest ih =>
    obtain ⟨key, v⟩ := f
    obtain ⟨here, hhere, hfollow⟩ := Option.bind_eq_some_iff.mp hr
    have hv : t.Intact ([v] ++ rest.map Prod.snd) := hi
    obtain ⟨w, hw, hsim⟩ := slot_simulates hblind hfair hdescend (fun w => .object mark (done ++ (key, w) :: rest))
      (fun w => by rw [erase_object, List.map_append, List.map_cons]; rfl) ht hv.left hm hhere
    have hfirst : Simulates alike (List.map Prod.snd) bareFields [v] t ⟨[(key, w.value)], w.edited, w.fault, w.trail⟩
        (here.map fun w => [(key, w)]) :=
      ⟨hsim.passed, congrArg (fun e => [(key, e)]) hsim.value, hsim.fault, hsim.memory⟩
    have hvalue : bareFields done ++ [(key, here.value)] = bareFields (done ++ [(key, w.value)]) := by
      rw [bareFields, bareFields, List.map_append, ← hsim.value]
      rfl
    rw [hvalue] at hfollow
    rcases hfirst.follow (fun _ _ => List.map_append) (fun _ _ => List.map_append) hv hfollow
      (fun later ht' hi' hlater => ih _ ht' hi' hsim.memory hlater) with
      ⟨fault, hfault, hend⟩ | ⟨hfault, w', hw', hend⟩
    · exact ⟨_, hw.succ fun n ⟨_, hn⟩ => ⟨_, .fieldStop hn hfault⟩, hend w.edited⟩
    · exact ⟨_, (hw.and hw').succ fun n ⟨⟨_, hn⟩, _, hn'⟩ => ⟨_, .field hn hfault hn'⟩, hend (w.edited || w'.edited)⟩

/-- **The children of a node**, to any depth. -/
theorem below_simulates (hblind : V.Blind alike) (hfair : V.Fair) (depth : Nat) :
    Descends V alike (Recursion.below V depth) := by
  induction depth with
  | zero =>
    intro v t m r _ _ _ hr
    cases hr
  | succ depth ih =>
    intro v t m r ht hi hm hr
    cases v with
    | object mark fs =>
      rw [erase_object] at hr
      obtain ⟨inner, hinner, rfl⟩ := Option.map_eq_some_iff.mp hr
      obtain ⟨w, hw, hsim⟩ := fields_simulates hblind hfair ih mark [] fs ht hi.fields hm hinner
      refine ⟨⟨.object mark w.value, false, w.fault, if w.edited then w.trail.recordObject mark w.value else w.trail⟩,
        hw.succ fun n ⟨_, hn⟩ => ⟨_, .object hn⟩, hsim.passed.object hi w.edited, ?_, hsim.fault, ?_⟩
      · rw [erase_object]
        exact congrArg (Value.object 0) hsim.value
      · dsimp only
        split <;> exact hsim.memory
    | _ =>
      cases hr
      exact ⟨_, .of_succ fun n => ⟨[], .notObject rfl⟩, .same ht hi rfl (Nat.le_refl _) hm⟩

end Walk

/-! ## From the root -/

/-- The tree that a walk starts with is intact. -/
theorem Value.Unshared.intact {tree : Value} (h : tree.Unshared) (m : σ) :
    let t : Trail σ := ⟨m, (tree.stamp (tree.topMark + 1)).2, []⟩
    t.Sound ∧ t.Intact [(tree.stamp (tree.topMark + 1)).1] := by
  have hle := (count_marks_stamp Nat.one_pos (tree.topMark + 1) tree).1
  have hcount (k : Nat) (hk : 0 < k) := (count_marks_stamp hk (tree.topMark + 1) tree).2
  have hpos : 0 < (tree.stamp (tree.topMark + 1)).2 := Nat.lt_of_lt_of_le (Nat.succ_pos _) hle
  refine ⟨⟨hpos, nofun, fun _ _ => rfl⟩, ?_, ?_, ?_, fun _ _ => rfl⟩
  · intro x hx
    rw [List.mem_singleton.mp hx]
    exact placed_stamp (Nat.succ_pos _) tree
  · intro k hmem
    rw [marksItems_singleton] at hmem
    exact lt_of_mem_stamp tree hmem
  · intro k hk
    have honce := h k hk
    rw [marksItems_singleton, hcount k hk]
    by_cases hold : k ∈ tree.marks
    · have htop := le_topMark tree hold
      rw [given, if_neg (by omega)]
      exact honce
    · rw [List.count_eq_zero.mpr hold, Nat.zero_add]
      exact given_le_one ..

/-- A node that takes the place of the root has new marks only. -/
theorem Visitor.Fair.ask_root (hfair : V.Fair) {v x : Value} {t t' : Trail σ}
    (hask : V.ask v none t = (.ok (.node x), t')) : ∀ k ∈ x.marks, 0 < k → t.next ≤ k := by
  unfold Visitor.ask at hask
  rcases henter : V.enter v none t.memory with ⟨fault | answer, memory⟩
  · rw [henter] at hask
    cases hask
  · rw [henter] at hask
    cases answer with
    | keep => cases hask
    | splice request => cases hask
    | node n =>
      have hnew := hfair.root (congrArg Prod.fst henter)
      cases hask
      intro k hmem hk
      rcases mem_or_given (Nat.le_of_eq (count_marks_stamp hk t.next n).2) hmem with hold | hgiven
      · exact absurd (hnew k hold) (Nat.ne_of_gt hk)
      · exact hgiven.1

/-- The end `o` of a walk is the end `r` of the recursion. -/
structure Outcome.Agrees (alike : σ → σ → Prop) (o : Outcome σ) (r : Rewritten σ (Value × Value)) : Prop where
  root : o.root.erase = r.value.1
  tree : o.tree.erase = r.value.2
  fault : o.fault = r.fault
  memory : alike o.memory r.memory

/-- A walk from the root ends like the recursion. -/
theorem walk_agrees (hblind : V.Blind alike) (hfair : V.Fair) {tree : Value} (hunshared : tree.Unshared) {m m' : σ}
    (hm : alike m m') {depth : Nat} {r : Rewritten σ (Value × Value)}
    (hr : Recursion.rewrite V depth tree.erase m' = some r) :
    Eventually fun n => (walk V n tree m).Agrees alike r := by
  obtain ⟨ht, hi⟩ := hunshared.intact m
  have herase : (tree.stamp (tree.topMark + 1)).1.erase = tree.erase := erase_stamp ..
  rw [← herase] at hr
  unfold Recursion.rewrite at hr
  simp only [walk]
  generalize (tree.stamp (tree.topMark + 1)).1 = placed at ht hi hr ⊢
  generalize (tree.stamp (tree.topMark + 1)).2 = next at ht hi hr ⊢
  rcases hask : V.ask placed none ⟨m, next, []⟩ with ⟨answer, t'⟩
  rcases henter : V.enter placed.erase none m' with ⟨answer', m₁⟩
  have hasked := Visitor.asked hblind hfair ht hi hm hask henter
  have ht' := ht.later hasked.revisions hasked.next_le
  rw [henter, hasked.erased] at hr
  rcases answer with fault | answer
  · cases hr
    exact .always fun n => ⟨rfl, rfl, rfl, hasked.memory⟩
  · cases answer with
    | keep =>
      obtain ⟨inner, hinner, rfl⟩ := Option.map_eq_some_iff.mp hr
      obtain ⟨w, hw, hsim⟩ := Walk.below_simulates hblind hfair depth ht' (hi.later hasked.revisions hasked.next_le)
        hasked.memory hinner
      refine hw.imp fun n hends => ?_
      obtain ⟨_, hn⟩ := hends
      have hrun : Walk.children V n placed t' = w := hn.eq_run
      dsimp only
      rw [hrun]
      exact ⟨hsim.current, hsim.current, hsim.fault, hsim.memory⟩
    | node x =>
      obtain ⟨hnodes, hcount⟩ := hasked.nodes rfl
      obtain ⟨inner, hinner, rfl⟩ := Option.map_eq_some_iff.mp hr
      obtain ⟨w, hw, hsim⟩ := Walk.below_simulates hblind hfair depth ht' hnodes hasked.memory hinner
      -- the new root is new throughout, so the walk edits nothing of the old one
      have hold : w.trail.current placed = placed := by
        have hnew := hfair.ask_root hask
        have hkept := (hi.later hasked.revisions hasked.next_le).settled placed List.mem_cons_self
        refine (hsim.passed.keep placed hkept fun k hk hpos => ?_).refresh
        have hlt := hi.bounded k (marksItems_singleton placed ▸ hk)
        refine ⟨Nat.lt_of_lt_of_le hlt hasked.next_le, fun hmem => ?_⟩
        exact absurd (hnew k (marksItems_singleton x ▸ hmem) hpos) (Nat.not_le.mpr hlt)
      refine hw.imp fun n hends => ?_
      obtain ⟨_, hn⟩ := hends
      have hrun : Walk.children V n x t' = w := hn.eq_run
      dsimp only
      rw [hrun]
      refine ⟨hsim.current, ?_, hsim.fault, hsim.memory⟩
      show (w.trail.current placed).erase = _
      rw [hold]
      rfl
    | splice request =>
      cases hr
      exact .always fun n => ⟨rfl, rfl, rfl, hasked.memory⟩

/-- **The walk refines the recursion.** The visitor looks at contents only and uses no object twice, and nothing in the
tree is shared. If the recursion over the tree without marks has a result, then a walk with enough fuel ends with the
same root, the same tree and the same fault, after the same questions in the same order, and with a memory that is
alike. -/
theorem walk_refines_recursion (V : Visitor σ) (alike : σ → σ → Prop) (hblind : V.Blind alike) (hfair : V.Fair)
    (tree : Value) (hunshared : tree.Unshared) (m m' : σ) (hm : alike m m') (depth : Nat)
    (r : Rewritten (σ × List (Value × Option Value)) (Value × Value))
    (hr : Recursion.rewrite V.observed depth tree.erase (m', []) = some r) :
    ∃ enough, ∀ n, enough ≤ n →
      let o := walk V n tree m
      o.root.erase = r.value.1 ∧ o.tree.erase = r.value.2 ∧ o.fault = r.fault ∧ alike o.memory r.memory.1 ∧
        (V.questions n tree m).map eraseQuestion = r.memory.2 := by
  obtain ⟨enough, h⟩ := walk_agrees hblind.observed hfair.observed hunshared (m := (m, [])) ⟨hm, rfl⟩ hr
  refine ⟨enough, fun n hn => ?_⟩
  obtain ⟨hroot, htree, hfault, hmemory, hquestions⟩ := h n hn
  rw [walk_observed]
  exact ⟨hroot, htree, hfault, hmemory, hquestions⟩

namespace Sample

/-- A new node takes the place of an old one, some statements are taken away, and a note is put in front of others. -/
def edit (v : Value) : Answer :=
  if v.hasType "old" then .node (.new [("type", .text "new"), ("parts", .newList [.new [("type", .text "gone")]])])
  else if v.hasType "gone" then .splice ⟨v, []⟩
  else if v.hasType "noted" then .splice ⟨v, [.new [("type", .text "note")], v]⟩
  else .keep

/-- A visitor that edits, and counts the nodes it is asked about. -/
def editor : Visitor Nat where
  enter v _ m := (.ok (edit v), m + 1)

theorem edit_erase (v : Value) : edit v.erase = (edit v).erase := by
  have htype (type : String) : v.erase.hasType type = v.hasType type := by
    unfold hasType
    rw [get?_erase]
    cases v.get? "type" with
    | none => rfl
    | some w => exact regular_erase.isText w type
  simp only [edit, htype]
  split
  · rfl
  · split
    · rfl
    · split <;> rfl

/-- All that the visitor puts in is new, but for the node itself. -/
theorem edit_cases (v : Value) : edit v = .keep ∨ (∃ n, edit v = .node n ∧ ∀ k ∈ n.marks, k = 0) ∨
    ∃ nodes, edit v = .splice ⟨v, nodes⟩ ∧ ∀ k, 0 < k → (marksItems nodes).count k ≤ v.marks.count k := by
  unfold edit
  split
  · exact .inr (.inl ⟨_, rfl, by decide⟩)
  · split
    · exact .inr (.inr ⟨[], rfl, fun k _ => Nat.zero_le _⟩)
    · split
      · refine .inr (.inr ⟨_, rfl, fun k hk => ?_⟩)
        have hnote : (Value.new [("type", .text "note")]).marks = [0] := by decide
        rw [marksItems_cons, marksItems_singleton, hnote, List.count_append, List.count_singleton,
          if_neg (by simpa using Nat.ne_of_lt hk), Nat.zero_add]
      · exact .inl rfl

theorem editor_blind : editor.Blind Eq := by
  rintro v owner m _ rfl
  exact ⟨congrArg Except.ok (edit_erase v), rfl⟩

theorem editor_fair : editor.Fair where
  own {v owner m answer} _ hanswer k hk := by
    obtain rfl : edit v = answer := Except.ok.inj hanswer
    rcases edit_cases v with h | ⟨n, h, hnew⟩ | ⟨nodes, h, hown⟩ <;> rw [h]
    · exact Nat.zero_le _
    · rw [Answer.nodes, marksItems_singleton, List.count_eq_zero.mpr fun hmem => Nat.ne_of_gt hk (hnew k hmem)]
      exact Nat.zero_le _
    · exact hown k hk
  here {v owner m request} hanswer := by
    have hedit : edit v = .splice request := Except.ok.inj hanswer
    rcases edit_cases v with h | ⟨n, h, _⟩ | ⟨nodes, h, _⟩ <;> rw [h] at hedit <;> cases hedit
    rfl
  root {v m n} hanswer := by
    have hedit : edit v = .node n := Except.ok.inj hanswer
    rcases edit_cases v with h | ⟨n', h, hnew⟩ | ⟨nodes, h, _⟩ <;> rw [h] at hedit <;> cases hedit
    exact hnew

/-- A list whose items are taken away, noted, taken away again and kept, beside a field with an old node. -/
def draft : Value :=
  .new [("type", .text "page"), ("lines", .newList [
      .new [("type", .text "gone")], .new [("type", .text "noted"), ("about", .new [("type", .text "old")])],
      .new [("type", .text "gone")], .new [("type", .text "kept")]]),
    ("last", .new [("type", .text "old")])]

/-- The draft as the visitor leaves it. -/
def final : Value :=
  .new [("type", .text "page"), ("lines", .newList [
      .new [("type", .text "note")],
      .new [("type", .text "noted"), ("about", .new [("type", .text "new"), ("parts", .newList [])])],
      .new [("type", .text "kept")]]),
    ("last", .new [("type", .text "new"), ("parts", .newList [])])]

end Sample

theorem walk_refines_recursion_sample :
    Sample.editor.Blind Eq ∧ Sample.editor.Fair ∧ Sample.draft.Unshared ∧
      ∃ enough, ∀ n, enough ≤ n →
        let o := walk Sample.editor n Sample.draft 0
        o.root.erase = Sample.final ∧ o.tree.erase = Sample.final ∧ o.fault = none ∧ o.memory = 9 ∧
          (Sample.editor.questions n Sample.draft 0).length = 9 := by
  have hunshared : Sample.draft.Unshared := by
    have hnone : ∀ k ∈ Sample.draft.marks, k = 0 := by decide
    intro k hk
    rw [List.count_eq_zero.mpr fun hmem => Nat.ne_of_gt hk (hnone k hmem)]
    exact Nat.zero_le 1
  have hresult : (Recursion.rewrite Sample.editor.observed 5 Sample.draft.erase (0, [])).map
      (fun r => (r.value, r.fault, r.memory.1, r.memory.2.length))
        = some ((Sample.final, Sample.final), none, 9, 9) := rfl
  obtain ⟨r, hr, hend⟩ := Option.map_eq_some_iff.mp hresult
  obtain ⟨hvalue, hnone, hcount, hlength⟩ : r.value = _ ∧ r.fault = _ ∧ r.memory.1 = _ ∧ r.memory.2.length = _ := by
    simpa only [Prod.mk.injEq] using hend
  obtain ⟨enough, h⟩ := walk_refines_recursion Sample.editor Eq Sample.editor_blind Sample.editor_fair Sample.draft
    hunshared 0 0 rfl 5 r hr
  refine ⟨Sample.editor_blind, Sample.editor_fair, hunshared, enough, fun n hn => ?_⟩
  obtain ⟨hroot, htree, hfault, hmemory, hquestions⟩ := h n hn
  rw [hvalue] at hroot htree
  refine ⟨hroot, htree, hfault.trans hnone, hmemory.trans hcount, ?_⟩
  rw [← hlength, ← hquestions, List.length_map]

end EsmLift
