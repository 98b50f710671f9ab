import EsmLift.Proofs.Isolation
import EsmLift.Proofs.Keeping
import EsmLift.Proofs.Refinement
import EsmLift.Standard

/-!
# `Proofs.Idempotence` — a second pass changes nothing

A walk is **quiet** if no candidate that it reaches is owned by a program: all the pass can do is warn. A quiet walk
returns, leaves everything in its place and rejects the candidates in the order of `Value.reached`. The fuel of the
pass is enough for that. What a pass leaves behind is walked through quietly, so a second pass finds the same
candidates and says the same about them.

## Contents

* `Quiet`, `Trail.noted`: what a quiet walk needs, and what it remembers;
* `Quiet.enter`, `Quiet.keeps`: a quiet walk keeps every node;
* `Lift.run_quiet`: a pass over a tree in which nothing is to be replaced;
* `Warned.again`: the same warnings in another sink;
* `Lift.Completed.quiet`: a second pass is quiet.
-/

namespace EsmLift

open Value

/-! ## Quiet walks -/

/-- At the given nodes there is nothing to do but to warn about candidates, from one sink to another. -/
structure Quiet (category : Value) (nodes : List (Value × Value)) (d d' : Diagnostics) : Prop where
  clean : ∀ p ∈ nodes, ∃ b, Statement.isCandidate p.2 = .ok b ∧ (b = true → p.1.isA .program = false)
  warned : Warned category d (candidatesOf nodes) d'

/-- The trail after a quiet walk over the given nodes. -/
def Trail.noted (t : Trail Lift.Memory) (nodes : List (Value × Value)) (d : Diagnostics) : Trail Lift.Memory :=
  { t with memory := { t.memory with sink := d, rejected := t.memory.rejected ++ candidatesOf nodes } }

theorem Trail.noted_noted (t : Trail Lift.Memory) (xs ys : List (Value × Value)) (d d' : Diagnostics) :
    (t.noted xs d).noted ys d' = t.noted (xs ++ ys) d' := by
  simp only [noted, candidatesOf_append, List.append_assoc]

/-- Warnings about two lists of nodes are warnings about the one and then about the other. -/
theorem Warned.split {category : Value} {d d' : Diagnostics} (xs : List Value) {ys : List Value}
    (h : Warned category d (xs ++ ys) d') : ∃ d₁, Warned category d xs d₁ ∧ Warned category d₁ ys d' := by
  induction xs generalizing d with
  | nil => exact ⟨d, .nil d, h⟩
  | cons x rest ih =>
    cases h with
    | cons first later =>
      obtain ⟨d₁, h₁, h₂⟩ := ih later
      exact ⟨d₁, .cons first h₁, h₂⟩

namespace Quiet

variable {category : Value} {d d' : Diagnostics} {t : Trail Lift.Memory}

/-- A quiet walk over nothing. -/
theorem noted_nil (h : Quiet category [] t.memory.sink d) : t.noted [] d = t := by
  cases h.warned
  simp only [Trail.noted, candidatesOf, List.map_nil, List.filter_nil, List.append_nil]

theorem append {xs ys : List (Value × Value)} (h : Quiet category (xs ++ ys) d d') :
    ∃ d₁, Quiet category xs d d₁ ∧ Quiet category ys d₁ d' := by
  obtain ⟨hxs, hys⟩ := List.forall_mem_append.mp h.clean
  obtain ⟨d₁, h₁, h₂⟩ := Warned.split _ (candidatesOf_append xs ys ▸ h.warned)
  exact ⟨d₁, ⟨hxs, h₁⟩, ⟨hys, h₂⟩⟩

/-- The first node of a quiet walk is kept, with a warning if it is a candidate. -/
theorem enter {o v : Value} {nodes : List (Value × Value)} (h : Quiet category ((o, v) :: nodes) t.memory.sink d)
    (keepComments : Bool) (owner : Option Value) (howner : Lift.isProgram owner = o.isA .program) :
    ∃ d₁, (Lift.visitor category keepComments).enter v owner t.memory = (.ok .keep, (t.noted [(o, v)] d₁).memory) ∧
      Quiet category nodes d₁ d := by
  obtain ⟨d₁, h₁, h₂⟩ := append (show Quiet category ([(o, v)] ++ nodes) t.memory.sink d from h)
  refine ⟨d₁, ?_, h₂⟩
  obtain ⟨b, hb, hno⟩ := h₁.clean _ List.mem_cons_self
  have hw := h₁.warned
  have hcand : candidatesOf [(o, v)] = if b then [v] else [] := by
    rw [candidatesOf_cons, Statement.loads, hb]
    exact List.append_nil _
  unfold Lift.visitor Trail.noted
  rw [hcand] at hw ⊢
  dsimp only
  rw [hb]
  cases b with
  | false =>
    cases hw
    simp only [Bool.false_eq_true, if_false, List.append_nil]
  | true =>
    cases hw with
    | cons first later =>
      cases later
      dsimp only
      rw [howner, hno rfl, if_neg Bool.false_ne_true, first]
      rfl

/-- **A quiet walk keeps every node.** -/
theorem keeps {nodes : List (Value × Value)} (h : Quiet category nodes t.memory.sink d) (keepComments : Bool) :
    (Lift.visitor category keepComments).Keeps nodes t (t.noted nodes d) := by
  induction nodes generalizing t with
  | nil =>
    rw [h.noted_nil]
    exact .nil t
  | cons p rest ih =>
    obtain ⟨d₁, henter, hrest⟩ := h.enter keepComments (some p.1) rfl
    have hlater := ih (t := t.noted [p] d₁) hrest
    rw [Trail.noted_noted] at hlater
    exact .cons henter hlater

end Quiet

namespace Lift

variable {category : Value} {sink d : Diagnostics} {tree : Value}

/-- **A quiet pass.** Over a tree with marks in which no candidate is owned by a program, the pass returns, replaces
nothing, leaves the tree as it is and rejects its candidates. -/
theorem run_quiet (keepComments : Bool) (hmarked : ∀ m ∈ tree.marks, 0 < m)
    (h : Quiet category ((.null, tree) :: tree.reached) sink d) :
    run category keepComments sink tree
      = { tree, fault := none, sink := d, replacements := []
          rejected := (tree.visits.map (·.2)).filter Statement.loads } := by
  -- everything is marked already, so the tree is walked through as it is
  have hplaced : tree.stamp (tree.topMark + 1) = (tree, tree.topMark + 1) := stamp_of_marked _ tree hmarked
  let t : Trail Memory := { memory := ⟨sink, [], []⟩, next := tree.topMark + 1, revisions := [] }
  obtain ⟨d₁, henter, hbelow⟩ := h.enter (t := t) keepComments none rfl
  have hask : (visitor category keepComments).ask tree none t = (.ok .keep, t.noted [(.null, tree)] d₁) :=
    Visitor.ask_of_keep henter
  -- the fuel of a pass is more than a quiet walk needs
  have hfuel : 2 * tree.size ≤ fuel tree := by unfold fuel; omega
  have hwalk : Walk.children (visitor category keepComments) (fuel tree) tree (t.noted [(.null, tree)] d₁)
      = ⟨tree, false, none, (t.noted [(.null, tree)] d₁).noted tree.reached d⟩ :=
    Walk.children_kept tree (fuel tree) (isObject_of_ask hask) rfl hfuel
      (hbelow.keeps (t := t.noted [(.null, tree)] d₁) keepComments)
  rw [Trail.noted_noted] at hwalk
  unfold run walk
  rw [hplaced]
  dsimp only
  rw [hask]
  dsimp only
  rw [hwalk, map_snd_visits]
  simp only [Outcome.ofWalked, Trail.noted, Trail.current, refresh_nil, t, List.map_nil, List.nil_append,
    List.map_id', Bool.false_eq_true, if_false]
  rfl

end Lift

/-! ## The same warnings again -/

/-- A sink accepts what another one accepts: it works with the same services, and prints only if the other one does. -/
structure Diagnostics.Follows (e d : Diagnostics) : Prop where
  services : e.services = d.services
  echo : e.echo = true → d.echo = true

/-- A sink that follows another one accepts the same warning, and goes on following it. -/
theorem Diagnostics.warn_again {d d' e : Diagnostics} {v message category : Value}
    (h : d.warn v message category = (.ok (), d')) (hfollows : e.Follows d) :
    ∃ e' w, e.warn v message category = (.ok (), e') ∧ d'.warnings = d.warnings ++ [w] ∧
      e'.warnings = e.warnings ++ [w] ∧ e'.Follows d' := by
  obtain ⟨w, hw, hwarnings, hservices, hecho, hlog⟩ := warn_ok h
  unfold warn
  rw [hfollows.services, hw]
  dsimp only
  cases he : e.echo with
  | false =>
    rw [if_neg Bool.false_ne_true]
    exact ⟨_, w, rfl, hwarnings, rfl, ⟨hservices.symm, fun h => by cases h⟩⟩
  | true =>
    obtain ⟨lines, hlines⟩ := hlog (hfollows.echo he)
    rw [if_pos rfl, hlines]
    exact ⟨_, w, rfl, hwarnings, rfl, ⟨hservices.symm, fun _ => hecho.trans (hfollows.echo he)⟩⟩

theorem Warned.again {category : Value} {d d' e : Diagnostics} {nodes : List Value}
    (h : Warned category d nodes d') (hfollows : e.Follows d) :
    ∃ e' ws, Warned category e nodes e' ∧ d'.warnings = d.warnings ++ ws ∧ e'.warnings = e.warnings ++ ws := by
  induction h generalizing e with
  | nil d => exact ⟨e, [], .nil e, (List.append_nil _).symm, (List.append_nil _).symm⟩
  | cons first _ ih =>
    obtain ⟨e₁, w, hfirst, hd, he, hfollows₁⟩ := Diagnostics.warn_again first hfollows
    obtain ⟨e', ws, hlater, hd', he'⟩ := ih hfollows₁
    refine ⟨e', w :: ws, .cons hfirst hlater, ?_, ?_⟩
    · rw [hd', hd, List.append_assoc]
      rfl
    · rw [he', he, List.append_assoc]
      rfl

namespace Lift

/-- What a completed pass leaves behind is quiet for another one. -/
theorem Completed.quiet {category : Value} {keepComments : Bool} {sink d d' : Diagnostics} {tree : Value} {r : Result}
    (h : Completed category keepComments sink tree r) (hw : Warned category d r.rejected d') :
    Quiet category ((.null, r.tree) :: r.tree.reached) d d' := by
  constructor
  · intro p hp
    rcases List.mem_cons.mp hp with rfl | hp
    · obtain ⟨b, hb, _⟩ := h.clean (none, r.tree) List.mem_cons_self
      exact ⟨b, hb, fun _ => rfl⟩
    · exact h.clean (some p.1, p.2) (List.mem_cons_of_mem _ (List.mem_map.mpr ⟨p, hp, rfl⟩))
  · unfold candidatesOf
    rw [← map_snd_visits, ← h.rejected]
    exact hw

/-- **A second pass changes nothing.** If a pass over a tree without marks returns, so does a second one over what it
left behind, with comments kept or not: it replaces nothing, leaves the tree exactly as it is, rejects the same nodes
in the same order and adds the same warnings. The second sink may be another one with the same services, unless it
prints and the first one does not. -/
theorem run_idempotent (category : Value) (keepComments keepComments' : Bool) (sink sink' : Diagnostics) (tree : Value)
    (hjson : tree.isJson = true) (hfault : (run category keepComments sink tree).fault = none)
    (hservices : sink'.services = sink.services) (hecho : sink'.echo = true → sink.echo = true) :
    let r := run category keepComments sink tree
    let r' := run category keepComments' sink' r.tree
    r'.fault = none ∧ r'.replacements = [] ∧ r'.tree = r.tree ∧ r'.rejected = r.rejected ∧
      ∃ ws, r.sink.warnings = sink.warnings ++ ws ∧ r'.sink.warnings = sink'.warnings ++ ws := by
  intro r r'
  have hdone : Completed category keepComments sink tree r := run_completed hjson hfault
  obtain ⟨d, ws, hwarned, hws, hws'⟩ := hdone.warned.again ⟨hservices, hecho⟩
  have hr' : r' = _ := run_quiet keepComments' hdone.marked (hdone.quiet hwarned)
  rw [hr']
  exact ⟨rfl, rfl, rfl, hdone.rejected.symm, ws, hws, hws'⟩

theorem run_idempotent_sample :
    let r := run (.text "commonjs") true (.empty .standard false) Sample.program
    let r' := run (.text "commonjs") false r.sink r.tree
    Sample.program.isJson = true ∧ r.fault = none ∧ r.replacements.length = 2 ∧ r'.fault = none ∧
      r'.replacements = [] ∧ r'.tree = r.tree := by
  have h := run_idempotent (.text "commonjs") true false (.empty .standard false)
    (run (.text "commonjs") true (.empty .standard false) Sample.program).sink Sample.program (by decide +kernel)
    (by decide +kernel) (services_run ..) (by decide +kernel)
  exact ⟨by decide +kernel, by decide +kernel, by decide +kernel, h.1, h.2.1, h.2.2.1⟩

end Lift
end EsmLift
