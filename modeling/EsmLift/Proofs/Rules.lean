import EsmLift.Walk.Run

/-!
# `Proofs.Rules` — the walk as a relation

The functions of the walk call each other, and each of them goes one of several ways: a field is metadata or not, the
visitor keeps a node or replaces it, a fault stops the walk below or it goes on. Here the five functions are one
relation between the fuel, what is to be walked through, the trail, the questions that are asked and the result. It has
one rule for each way. What every walk preserves is then shown rule by rule, and how the functions are written matters
in this module only.

## Contents

* `Walk.Task`: what is to be walked through;
* `Walk.Runs`: the rules;
* `Walk.Runs.eq_run`, `Walk.Task.runs`: the rules describe the functions, each result and no other;
* `Visitor.remember`, `Walk.Runs.memory_eq`: what the visitor remembers depends on the questions only;
* `Walk.Runs.succ`, `Walk.run_eq_of_le`: a walk that has enough fuel goes the same way with more.
-/

namespace EsmLift

/-- What a visitor is asked about: a node, and the object that owns it. -/
abbrev Question := Value × Option Value

namespace Walk

/-- What is to be walked through: the arguments of one of the functions of the walk. -/
inductive Task where
  | children (v : Value)
  | fields (mark : Nat) (done todo : Fields)
  | slot (owner : Value → Value) (key : String) (v : Value)
  | items (owner : List Value → Value) (done todo : List Value)
  | each (nodes : List Value)

namespace Task

/-- What a walk returns beside the trail. -/
@[reducible] def Result : Task → Type
  | children _ => Value
  | fields .. => Fields
  | slot .. => Value
  | items .. => List Value
  | each _ => List Value

/-- What stands there before the walk. -/
def given : (task : Task) → task.Result
  | children v => v
  | fields _ _ todo => todo
  | slot _ _ v => v
  | items _ done todo => done ++ todo
  | each nodes => nodes

/-- The walk itself. -/
def run {σ : Type} (V : Visitor σ) (fuel : Nat) (task : Task) (t : Trail σ) : Walked σ task.Result :=
  match task with
  | children v => Walk.children V fuel v t
  | fields mark done todo => Walk.fields V fuel mark done todo t
  | slot owner key v => Walk.slot V fuel owner key v t
  | items owner done todo => Walk.items V fuel owner done todo t
  | each nodes => Walk.each V fuel nodes t

end Task

variable {σ : Type}

/-- **The rules of the walk**: with this fuel and from this trail, the task asks these questions and ends like this. -/
inductive Runs (V : Visitor σ) : Nat → (task : Task) → Trail σ → List Question → Walked σ task.Result → Prop
  /-- Without fuel nothing is done. -/
  | exhausted {task : Task} {t : Trail σ} : Runs V 0 task t [] ⟨task.given, false, some .exhausted, t⟩
  -- children
  | object {n mark : Nat} {fs : Fields} {t : Trail σ} {qs : List Question} {w : Walked σ Fields}
      (hfields : Runs V n (.fields mark [] fs) t qs w) :
      Runs V (n + 1) (.children (.object mark fs)) t qs
        ⟨.object mark w.value, false, w.fault, if w.edited then w.trail.recordObject mark w.value else w.trail⟩
  | notObject {n : Nat} {v : Value} {t : Trail σ} (hobj : v.isObject = false) :
      Runs V (n + 1) (.children v) t [] ⟨v, false, some .notObject, t⟩
  -- fields
  | noFields {n mark : Nat} {done : Fields} {t : Trail σ} :
      Runs V (n + 1) (.fields mark done []) t [] ⟨[], false, none, t⟩
  | fieldStop {n mark : Nat} {done rest : Fields} {key : String} {v : Value} {t : Trail σ}
      {qs : List Question} {here : Walked σ Value} {fault : Fault}
      (hhere : Runs V n (.slot (fun w => .object mark (done ++ (key, w) :: rest)) key v) t qs here)
      (hfault : here.fault = some fault) :
      Runs V (n + 1) (.fields mark done ((key, v) :: rest)) t qs
        ⟨(key, here.value) :: rest, here.edited, some fault, here.trail⟩
  | field {n mark : Nat} {done rest : Fields} {key : String} {v : Value} {t : Trail σ}
      {qs qs' : List Question} {here : Walked σ Value} {later : Walked σ Fields}
      (hhere : Runs V n (.slot (fun w => .object mark (done ++ (key, w) :: rest)) key v) t qs here)
      (hfault : here.fault = none)
      (hlater : Runs V n (.fields mark (done ++ [(key, here.value)]) rest) here.trail qs' later) :
      Runs V (n + 1) (.fields mark done ((key, v) :: rest)) t (qs ++ qs')
        ⟨(key, here.value) :: later.value, here.edited || later.edited, later.fault, later.trail⟩
  -- the value of a field
  | metadata {n : Nat} {owner : Value → Value} {key : String} {v : Value} {t : Trail σ}
      (hkey : Syntax.metadataKeys.contains key = true) :
      Runs V (n + 1) (.slot owner key v) t [] ⟨v, false, none, t⟩
  | slotList {n : Nat} {owner : Value → Value} {key : String} {v : Value} {t : Trail σ} {mark : Nat} {xs : List Value}
      {qs : List Question} {w : Walked σ (List Value)} (hkey : Syntax.metadataKeys.contains key = false)
      (hcurrent : t.current v = .list mark xs)
      (hitems : Runs V n (.items (fun ys => owner (.list mark ys)) [] xs) t qs w) :
      Runs V (n + 1) (.slot owner key v) t qs
        ⟨.list mark w.value, false, w.fault, if w.edited then w.trail.recordList mark w.value else w.trail⟩
  | slotOther {n : Nat} {owner : Value → Value} {key : String} {v u : Value} {t : Trail σ}
      (hkey : Syntax.metadataKeys.contains key = false) (hcurrent : t.current v = u) (hlist : ∀ m xs, u ≠ .list m xs)
      (hnode : u.isNode = false) : Runs V (n + 1) (.slot owner key v) t [] ⟨u, false, none, t⟩
  | slotFault {n : Nat} {owner : Value → Value} {key : String} {v u : Value} {t t' : Trail σ} {fault : Fault}
      (hkey : Syntax.metadataKeys.contains key = false) (hcurrent : t.current v = u) (hnode : u.isNode = true)
      (hask : V.ask u (some (owner u)) t = (.error fault, t')) :
      Runs V (n + 1) (.slot owner key v) t [(u, some (owner u))] ⟨u, false, some fault, t'⟩
  | slotKeep {n : Nat} {owner : Value → Value} {key : String} {v u : Value} {t t' : Trail σ}
      {qs : List Question} {w : Walked σ Value} (hkey : Syntax.metadataKeys.contains key = false)
      (hcurrent : t.current v = u) (hnode : u.isNode = true) (hask : V.ask u (some (owner u)) t = (.ok .keep, t'))
      (hchildren : Runs V n (.children u) t' qs w) :
      Runs V (n + 1) (.slot owner key v) t ((u, some (owner u)) :: qs) w
  | slotNode {n : Nat} {owner : Value → Value} {key : String} {v u x : Value} {t t' : Trail σ}
      {qs : List Question} {w : Walked σ Value} (hkey : Syntax.metadataKeys.contains key = false)
      (hcurrent : t.current v = u) (hnode : u.isNode = true)
      (hask : V.ask u (some (owner u)) t = (.ok (.node x), t')) (hchildren : Runs V n (.children x) t' qs w) :
      Runs V (n + 1) (.slot owner key v) t ((u, some (owner u)) :: qs) { w with edited := true }
  | slotSplice {n : Nat} {owner : Value → Value} {key : String} {v u : Value} {t t' : Trail σ} {r : Replacement}
      (hkey : Syntax.metadataKeys.contains key = false) (hcurrent : t.current v = u) (hnode : u.isNode = true)
      (hask : V.ask u (some (owner u)) t = (.ok (.splice r), t')) :
      Runs V (n + 1) (.slot owner key v) t [(u, some (owner u))] ⟨u, false, some (.fieldSplice key), t'⟩
  -- the items of a list
  | noItems {n : Nat} {owner : List Value → Value} {done : List Value} {t : Trail σ} :
      Runs V (n + 1) (.items owner done []) t [] ⟨done, false, none, t⟩
  | itemOther {n : Nat} {owner : List Value → Value} {done rest : List Value} {v : Value} {t : Trail σ}
      {qs : List Question} {w : Walked σ (List Value)} (hnode : v.isNode = false)
      (hlater : Runs V n (.items owner (done ++ [v]) rest) t qs w) :
      Runs V (n + 1) (.items owner done (v :: rest)) t qs w
  | itemFault {n : Nat} {owner : List Value → Value} {done rest : List Value} {v u : Value} {t t' : Trail σ}
      {fault : Fault} (hnode : v.isNode = true) (hcurrent : t.current v = u)
      (hask : V.ask u (some (owner (done ++ u :: rest))) t = (.error fault, t')) :
      Runs V (n + 1) (.items owner done (v :: rest)) t [(u, some (owner (done ++ u :: rest)))]
        ⟨done ++ u :: rest, false, some fault, t'⟩
  | itemKeepStop {n : Nat} {owner : List Value → Value} {done rest : List Value} {v u : Value} {t t' : Trail σ}
      {qs : List Question} {w : Walked σ Value} {fault : Fault} (hnode : v.isNode = true)
      (hcurrent : t.current v = u) (hask : V.ask u (some (owner (done ++ u :: rest))) t = (.ok .keep, t'))
      (hchildren : Runs V n (.children u) t' qs w) (hfault : w.fault = some fault) :
      Runs V (n + 1) (.items owner done (v :: rest)) t ((u, some (owner (done ++ u :: rest))) :: qs)
        ⟨done ++ w.value :: rest, false, some fault, w.trail⟩
  | itemKeep {n : Nat} {owner : List Value → Value} {done rest : List Value} {v u : Value} {t t' : Trail σ}
      {qs qs' : List Question} {w : Walked σ Value} {later : Walked σ (List Value)}
      (hnode : v.isNode = true) (hcurrent : t.current v = u)
      (hask : V.ask u (some (owner (done ++ u :: rest))) t = (.ok .keep, t'))
      (hchildren : Runs V n (.children u) t' qs w) (hfault : w.fault = none)
      (hlater : Runs V n (.items owner (done ++ [w.value]) rest) w.trail qs' later) :
      Runs V (n + 1) (.items owner done (v :: rest)) t ((u, some (owner (done ++ u :: rest))) :: (qs ++ qs')) later
  | itemNodeStop {n : Nat} {owner : List Value → Value} {done rest : List Value} {v u x : Value} {t t' : Trail σ}
      {qs : List Question} {w : Walked σ Value} {fault : Fault} (hnode : v.isNode = true)
      (hcurrent : t.current v = u) (hask : V.ask u (some (owner (done ++ u :: rest))) t = (.ok (.node x), t'))
      (hchildren : Runs V n (.children x) t' qs w) (hfault : w.fault = some fault) :
      Runs V (n + 1) (.items owner done (v :: rest)) t ((u, some (owner (done ++ u :: rest))) :: qs)
        ⟨done ++ w.value :: rest, true, some fault, w.trail⟩
  | itemNode {n : Nat} {owner : List Value → Value} {done rest : List Value} {v u x : Value} {t t' : Trail σ}
      {qs qs' : List Question} {w : Walked σ Value} {later : Walked σ (List Value)}
      (hnode : v.isNode = true) (hcurrent : t.current v = u)
      (hask : V.ask u (some (owner (done ++ u :: rest))) t = (.ok (.node x), t'))
      (hchildren : Runs V n (.children x) t' qs w) (hfault : w.fault = none)
      (hlater : Runs V n (.items owner (done ++ [w.value]) rest) w.trail qs' later) :
      Runs V (n + 1) (.items owner done (v :: rest)) t ((u, some (owner (done ++ u :: rest))) :: (qs ++ qs'))
        { later with edited := true }
  | itemLost {n : Nat} {owner : List Value → Value} {done rest : List Value} {v u : Value} {t t' : Trail σ}
      {r : Replacement} {fault : Fault} (hnode : v.isNode = true) (hcurrent : t.current v = u)
      (hask : V.ask u (some (owner (done ++ u :: rest))) t = (.ok (.splice r), t'))
      (hsplit : r.split (done ++ u :: rest) = .error fault) :
      Runs V (n + 1) (.items owner done (v :: rest)) t [(u, some (owner (done ++ u :: rest)))]
        ⟨done ++ u :: rest, false, some fault, t'⟩
  | itemSpliceStop {n : Nat} {owner : List Value → Value} {done rest before after : List Value} {v u : Value}
      {t t' : Trail σ} {r : Replacement} {qs : List Question} {w : Walked σ (List Value)} {fault : Fault}
      (hnode : v.isNode = true) (hcurrent : t.current v = u)
      (hask : V.ask u (some (owner (done ++ u :: rest))) t = (.ok (.splice r), t'))
      (hsplit : r.split (done ++ u :: rest) = .ok (before, after)) (heach : Runs V n (.each r.nodes) t' qs w)
      (hfault : w.fault = some fault) :
      Runs V (n + 1) (.items owner done (v :: rest)) t ((u, some (owner (done ++ u :: rest))) :: qs)
        ⟨before ++ w.value ++ after, true, some fault, w.trail⟩
  | itemSplice {n : Nat} {owner : List Value → Value} {done rest before after : List Value} {v u : Value}
      {t t' : Trail σ} {r : Replacement} {qs qs' : List Question} {w later : Walked σ (List Value)}
      (hnode : v.isNode = true) (hcurrent : t.current v = u)
      (hask : V.ask u (some (owner (done ++ u :: rest))) t = (.ok (.splice r), t'))
      (hsplit : r.split (done ++ u :: rest) = .ok (before, after)) (heach : Runs V n (.each r.nodes) t' qs w)
      (hfault : w.fault = none) (hlater : Runs V n (.items owner (before ++ w.value) after) w.trail qs' later) :
      Runs V (n + 1) (.items owner done (v :: rest)) t ((u, some (owner (done ++ u :: rest))) :: (qs ++ qs'))
        { later with edited := true }
  -- new statements
  | noNodes {n : Nat} {t : Trail σ} : Runs V (n + 1) (.each []) t [] ⟨[], false, none, t⟩
  | nodeStop {n : Nat} {v u : Value} {rest : List Value} {t : Trail σ} {qs : List Question}
      {w : Walked σ Value} {fault : Fault} (hcurrent : t.current v = u) (hchildren : Runs V n (.children u) t qs w)
      (hfault : w.fault = some fault) :
      Runs V (n + 1) (.each (v :: rest)) t qs ⟨w.value :: rest, false, some fault, w.trail⟩
  | node {n : Nat} {v u : Value} {rest : List Value} {t : Trail σ} {qs qs' : List Question}
      {w : Walked σ Value} {later : Walked σ (List Value)} (hcurrent : t.current v = u)
      (hchildren : Runs V n (.children u) t qs w) (hfault : w.fault = none)
      (hlater : Runs V n (.each rest) w.trail qs' later) :
      Runs V (n + 1) (.each (v :: rest)) t (qs ++ qs') ⟨w.value :: later.value, false, later.fault, later.trail⟩

variable {V : Visitor σ} {n : Nat} {task : Task} {t : Trail σ} {qs : List Question}

/-- The value of a field that is a node: the visitor is asked. -/
theorem slot_ask (owner : Value → Value) {key : String} {v u : Value}
    (hkey : Syntax.metadataKeys.contains key = false) (hcurrent : t.current v = u) (hnode : u.isNode = true) :
    slot V (n + 1) owner key v t =
      match V.ask u (some (owner u)) t with
      | (.error fault, t) => ⟨u, false, some fault, t⟩
      | (.ok .keep, t) => children V n u t
      | (.ok (.node x), t) => { children V n x t with edited := true }
      | (.ok (.splice _), t) => ⟨u, false, some (.fieldSplice key), t⟩ := by
  rw [slot, hkey, if_neg Bool.false_ne_true, hcurrent]
  cases u with
  | object m fs =>
    dsimp only
    rewrite [if_pos hnode]
    rfl
  | _ => cases hnode

/-- An item that is a node: the visitor is asked. -/
theorem items_ask (owner : List Value → Value) {done rest : List Value} {v u : Value} (hnode : v.isNode = true)
    (hcurrent : t.current v = u) :
    items V (n + 1) owner done (v :: rest) t =
      match V.ask u (some (owner (done ++ u :: rest))) t with
      | (.error fault, t) => ⟨done ++ u :: rest, false, some fault, t⟩
      | (.ok .keep, t) =>
        let w := children V n u t
        match w.fault with
        | some fault => ⟨done ++ w.value :: rest, false, some fault, w.trail⟩
        | none => items V n owner (done ++ [w.value]) rest w.trail
      | (.ok (.node x), t) =>
        let w := children V n x t
        match w.fault with
        | some fault => ⟨done ++ w.value :: rest, true, some fault, w.trail⟩
        | none => { items V n owner (done ++ [w.value]) rest w.trail with edited := true }
      | (.ok (.splice r), t) =>
        match r.split (done ++ u :: rest) with
        | .error fault => ⟨done ++ u :: rest, false, some fault, t⟩
        | .ok (before, after) =>
          let w := each V n r.nodes t
          match w.fault with
          | some fault => ⟨before ++ w.value ++ after, true, some fault, w.trail⟩
          | none => { items V n owner (before ++ w.value) after w.trail with edited := true } := by
  rewrite [items, if_pos hnode, hcurrent]
  rfl

/-- **The rules give what the functions return.** -/
theorem Runs.eq_run {w : Walked σ task.Result} (h : Runs V n task t qs w) : task.run V n t = w := by
  induction h with
  | @exhausted task t => cases task <;> rfl
  | object _ ih =>
    simp only [Task.run] at ih ⊢
    rw [children, ih]
  | @notObject n v t hobj =>
    cases v with
    | object => cases hobj
    | _ => rfl
  | noFields => rfl
  | fieldStop _ hfault ih =>
    simp only [Task.run] at ih ⊢
    rw [fields, ih]
    dsimp only
    rw [hfault]
  | field _ hfault _ ih ih' =>
    simp only [Task.run] at ih ih' ⊢
    rw [fields, ih]
    dsimp only
    rw [hfault, ih']
  | metadata hkey => rw [Task.run, slot, if_pos hkey]
  | slotList hkey hcurrent _ ih =>
    simp only [Task.run] at ih ⊢
    rw [slot, hkey, if_neg Bool.false_ne_true, hcurrent]
    dsimp only
    rw [ih]
  | @slotOther n owner key v u t hkey hcurrent hlist hnode =>
    rw [Task.run, slot, hkey, if_neg Bool.false_ne_true, hcurrent]
    cases u with
    | list m xs => exact absurd rfl (hlist m xs)
    | _ =>
      dsimp only
      rw [if_neg (by rw [hnode]; exact Bool.false_ne_true)]
  | slotFault hkey hcurrent hnode hask => rw [Task.run, slot_ask _ hkey hcurrent hnode, hask]
  | slotKeep hkey hcurrent hnode hask _ ih => rw [Task.run, slot_ask _ hkey hcurrent hnode, hask, ← ih]; rfl
  | slotNode hkey hcurrent hnode hask _ ih => rw [Task.run, slot_ask _ hkey hcurrent hnode, hask, ← ih]; rfl
  | slotSplice hkey hcurrent hnode hask => rw [Task.run, slot_ask _ hkey hcurrent hnode, hask]
  | noItems => rfl
  | itemOther hnode _ ih =>
    simp only [Task.run] at ih ⊢
    rw [items, hnode, if_neg Bool.false_ne_true, ih]
  | itemFault hnode hcurrent hask => rw [Task.run, items_ask _ hnode hcurrent, hask]
  | itemKeepStop hnode hcurrent hask _ hfault ih =>
    simp only [Task.run] at ih ⊢
    rw [items_ask _ hnode hcurrent, hask]
    dsimp only
    rw [ih, hfault]
  | itemKeep hnode hcurrent hask _ hfault _ ih ih' =>
    simp only [Task.run] at ih ih' ⊢
    rw [items_ask _ hnode hcurrent, hask]
    dsimp only
    rw [ih, hfault]
    exact ih'
  | itemNodeStop hnode hcurrent hask _ hfault ih =>
    simp only [Task.run] at ih ⊢
    rw [items_ask _ hnode hcurrent, hask]
    dsimp only
    rw [ih, hfault]
  | itemNode hnode hcurrent hask _ hfault _ ih ih' =>
    simp only [Task.run] at ih ih' ⊢
    rw [items_ask _ hnode hcurrent, hask]
    dsimp only
    rw [ih, hfault, ih']
  | itemLost hnode hcurrent hask hsplit =>
    rw [Task.run, items_ask _ hnode hcurrent, hask]
    dsimp only
    rw [hsplit]
  | itemSpliceStop hnode hcurrent hask hsplit _ hfault ih =>
    simp only [Task.run] at ih ⊢
    rw [items_ask _ hnode hcurrent, hask]
    dsimp only
    rw [hsplit]
    dsimp only
    rw [ih, hfault]
  | itemSplice hnode hcurrent hask hsplit _ hfault _ ih ih' =>
    simp only [Task.run] at ih ih' ⊢
    rw [items_ask _ hnode hcurrent, hask]
    dsimp only
    rw [hsplit]
    dsimp only
    rw [ih, hfault, ih']
  | noNodes => rfl
  | nodeStop hcurrent _ hfault ih =>
    simp only [Task.run] at ih ⊢
    rw [each, hcurrent, ih]
    dsimp only
    rw [hfault]
  | node hcurrent _ hfault _ ih ih' =>
    simp only [Task.run] at ih ih' ⊢
    rw [each, hcurrent, ih]
    dsimp only
    rw [hfault, ih']

/-- There is a rule for the value of a field, whatever it is. -/
theorem exists_runs_slot (ih : ∀ task t, ∃ qs w, Runs V n task t qs w) (owner : Value → Value) (key : String) (v : Value)
    (t : Trail σ) : ∃ qs w, Runs V (n + 1) (.slot owner key v) t qs w := by
  cases hkey : Syntax.metadataKeys.contains key with
  | true => exact ⟨_, _, .metadata hkey⟩
  | false =>
    by_cases hlist : ∃ mark xs, t.current v = .list mark xs
    · obtain ⟨mark, xs, hcurrent⟩ := hlist
      obtain ⟨qs, w, h⟩ := ih (.items (fun ys => owner (.list mark ys)) [] xs) t
      exact ⟨_, _, .slotList hkey hcurrent h⟩
    · cases hnode : (t.current v).isNode with
      | false => exact ⟨_, _, .slotOther hkey rfl (fun m xs h => hlist ⟨m, xs, h⟩) hnode⟩
      | true =>
        rcases hask : V.ask (t.current v) (some (owner (t.current v))) t with ⟨fault | answer, t'⟩
        · exact ⟨_, _, .slotFault hkey rfl hnode hask⟩
        · cases answer with
          | keep =>
            obtain ⟨qs, w, h⟩ := ih (.children (t.current v)) t'
            exact ⟨_, _, .slotKeep hkey rfl hnode hask h⟩
          | node x =>
            obtain ⟨qs, w, h⟩ := ih (.children x) t'
            exact ⟨_, _, .slotNode hkey rfl hnode hask h⟩
          | splice r => exact ⟨_, _, .slotSplice hkey rfl hnode hask⟩

/-- There is a rule for an item, whatever it is and whatever the visitor answers. -/
theorem exists_runs_item (ih : ∀ task t, ∃ qs w, Runs V n task t qs w) (owner : List Value → Value) (done : List Value)
    (v : Value) (rest : List Value) (t : Trail σ) : ∃ qs w, Runs V (n + 1) (.items owner done (v :: rest)) t qs w := by
  cases hnode : v.isNode with
  | false =>
    obtain ⟨qs, w, h⟩ := ih (.items owner (done ++ [v]) rest) t
    exact ⟨_, _, .itemOther hnode h⟩
  | true =>
    rcases hask : V.ask (t.current v) (some (owner (done ++ t.current v :: rest))) t with ⟨fault | answer, t'⟩
    · exact ⟨_, _, .itemFault hnode rfl hask⟩
    · cases answer with
      | keep =>
        obtain ⟨qs, w, h⟩ := ih (.children (t.current v)) t'
        cases hfault : w.fault with
        | some fault => exact ⟨_, _, .itemKeepStop hnode rfl hask h hfault⟩
        | none =>
          obtain ⟨qs', later, h'⟩ := ih (.items owner (done ++ [w.value]) rest) w.trail
          exact ⟨_, _, .itemKeep hnode rfl hask h hfault h'⟩
      | node x =>
        obtain ⟨qs, w, h⟩ := ih (.children x) t'
        cases hfault : w.fault with
        | some fault => exact ⟨_, _, .itemNodeStop hnode rfl hask h hfault⟩
        | none =>
          obtain ⟨qs', later, h'⟩ := ih (.items owner (done ++ [w.value]) rest) w.trail
          exact ⟨_, _, .itemNode hnode rfl hask h hfault h'⟩
      | splice r =>
        cases hsplit : r.split (done ++ t.current v :: rest) with
        | error fault => exact ⟨_, _, .itemLost hnode rfl hask hsplit⟩
        | ok parts =>
          obtain ⟨before, after⟩ := parts
          obtain ⟨qs, w, h⟩ := ih (.each r.nodes) t'
          cases hfault : w.fault with
          | some fault => exact ⟨_, _, .itemSpliceStop hnode rfl hask hsplit h hfault⟩
          | none =>
            obtain ⟨qs', later, h'⟩ := ih (.items owner (before ++ w.value) after) w.trail
            exact ⟨_, _, .itemSplice hnode rfl hask hsplit h hfault h'⟩

/-- There is a rule for each step. -/
theorem exists_runs (V : Visitor σ) (n : Nat) (task : Task) (t : Trail σ) : ∃ qs w, Runs V n task t qs w := by
  induction n generalizing task t with
  | zero => exact ⟨_, _, .exhausted⟩
  | succ n ih =>
    cases task with
    | children v =>
      cases v with
      | object mark fs =>
        obtain ⟨qs, w, h⟩ := ih (.fields mark [] fs) t
        exact ⟨_, _, .object h⟩
      | _ => exact ⟨_, _, .notObject rfl⟩
    | fields mark done todo =>
      cases todo with
      | nil => exact ⟨_, _, .noFields⟩
      | cons f rest =>
        obtain ⟨key, v⟩ := f
        obtain ⟨qs, here, h⟩ := ih (.slot (fun w => .object mark (done ++ (key, w) :: rest)) key v) t
        cases hfault : here.fault with
        | some fault => exact ⟨_, _, .fieldStop h hfault⟩
        | none =>
          obtain ⟨qs', later, h'⟩ := ih (.fields mark (done ++ [(key, here.value)]) rest) here.trail
          exact ⟨_, _, .field h hfault h'⟩
    | slot owner key v => exact exists_runs_slot ih owner key v t
    | items owner done todo =>
      cases todo with
      | nil => exact ⟨_, _, .noItems⟩
      | cons v rest => exact exists_runs_item ih owner done v rest t
    | each nodes =>
      cases nodes with
      | nil => exact ⟨_, _, .noNodes⟩
      | cons v rest =>
        obtain ⟨qs, w, h⟩ := ih (.children (t.current v)) t
        cases hfault : w.fault with
        | some fault => exact ⟨_, _, .nodeStop rfl h hfault⟩
        | none =>
          obtain ⟨qs', later, h'⟩ := ih (.each rest) w.trail
          exact ⟨_, _, .node rfl h hfault h'⟩

/-- **The functions obey the rules.** -/
theorem Task.runs (V : Visitor σ) (n : Nat) (task : Task) (t : Trail σ) :
    ∃ qs, Runs V n task t qs (task.run V n t) := by
  obtain ⟨qs, w, h⟩ := exists_runs V n task t
  exact ⟨qs, h.eq_run ▸ h⟩

end Walk

/-! ## The memory of the visitor -/

variable {σ : Type} {V : Visitor σ}

/-- What a visitor remembers after questions. -/
def Visitor.remember (V : Visitor σ) (m : σ) (qs : List Question) : σ :=
  qs.foldl (fun m q => (V.enter q.1 q.2 m).2) m

theorem Visitor.remember_append (m : σ) (qs qs' : List Question) :
    V.remember m (qs ++ qs') = V.remember (V.remember m qs) qs' := List.foldl_append

theorem Visitor.memory_ask {v : Value} {owner : Option Value} {t t' : Trail σ} {answer : Except Fault Answer}
    (h : V.ask v owner t = (answer, t')) : t'.memory = (V.enter v owner t.memory).2 := by
  have hsnd : t' = (V.ask v owner t).2 := by rw [h]
  rw [hsnd, Visitor.ask]
  rcases V.enter v owner t.memory with ⟨fault | answer, memory⟩ <;> rfl

/-- After a question the visitor remembers it, and then the questions that follow. -/
theorem Visitor.remember_ask {v : Value} {owner : Option Value} {t t' : Trail σ} {answer : Except Fault Answer}
    (h : V.ask v owner t = (answer, t')) (qs : List Question) :
    V.remember t.memory ((v, owner) :: qs) = V.remember t'.memory qs := by
  rw [memory_ask h]
  rfl

namespace Walk.Runs

variable {n : Nat} {task : Task} {t : Trail σ} {qs : List Question}

/-- **The memory at the end depends on the questions only.** -/
theorem memory_eq {w : Walked σ task.Result} (h : Runs V n task t qs w) :
    w.trail.memory = V.remember t.memory qs := by
  induction h with
  | object _ ih =>
    dsimp only
    split <;> exact ih
  | slotList _ _ _ ih =>
    dsimp only
    split <;> exact ih
  | fieldStop _ _ ih => exact ih
  | field _ _ _ ih ih' => rw [Visitor.remember_append, ← ih, ← ih']
  | slotFault _ _ _ hask => rw [Visitor.remember_ask hask]; rfl
  | slotKeep _ _ _ hask _ ih => rw [Visitor.remember_ask hask, ← ih]
  | slotNode _ _ _ hask _ ih => rw [Visitor.remember_ask hask, ← ih]
  | slotSplice _ _ _ hask => rw [Visitor.remember_ask hask]; rfl
  | itemOther _ _ ih => exact ih
  | itemFault _ _ hask => rw [Visitor.remember_ask hask]; rfl
  | itemKeepStop _ _ hask _ _ ih => rw [Visitor.remember_ask hask, ← ih]
  | itemKeep _ _ hask _ _ _ ih ih' => rw [Visitor.remember_ask hask, Visitor.remember_append, ← ih, ← ih']
  | itemNodeStop _ _ hask _ _ ih => rw [Visitor.remember_ask hask, ← ih]
  | itemNode _ _ hask _ _ _ ih ih' => rw [Visitor.remember_ask hask, Visitor.remember_append, ← ih, ← ih']
  | itemLost _ _ hask _ => rw [Visitor.remember_ask hask]; rfl
  | itemSpliceStop _ _ hask _ _ _ ih => rw [Visitor.remember_ask hask, ← ih]
  | itemSplice _ _ hask _ _ _ _ ih ih' => rw [Visitor.remember_ask hask, Visitor.remember_append, ← ih, ← ih']
  | nodeStop _ _ _ ih => exact ih
  | node _ _ _ _ ih ih' => rw [Visitor.remember_append, ← ih, ← ih']
  | _ => rfl

end Walk.Runs

/-! ## More fuel -/

namespace Walk

variable {n : Nat} {task : Task} {t : Trail σ} {qs : List Question}

/-- With one unit more the walk goes the same way, if it was not stopped for want of fuel. -/
theorem Runs.succ {w : Walked σ task.Result} (h : Runs V n task t qs w) (hf : w.fault ≠ some .exhausted) :
    Runs V (n + 1) task t qs w := by
  -- a part that was walked through before the end was not stopped at all
  have hgoes {α : Type} {w : Walked σ α} (hnone : w.fault = none) : w.fault ≠ some .exhausted := by rw [hnone]; nofun
  induction h with
  | exhausted => exact absurd rfl hf
  | object _ ih => exact .object (ih hf)
  | notObject hobj => exact .notObject hobj
  | noFields => exact .noFields
  | fieldStop _ hfault ih => exact .fieldStop (ih (hfault ▸ hf)) hfault
  | field _ hfault _ ih ih' => exact .field (ih (hgoes hfault)) hfault (ih' hf)
  | metadata hkey => exact .metadata hkey
  | slotList hkey hcurrent _ ih => exact .slotList hkey hcurrent (ih hf)
  | slotOther hkey hcurrent hlist hnode => exact .slotOther hkey hcurrent hlist hnode
  | slotFault hkey hcurrent hnode hask => exact .slotFault hkey hcurrent hnode hask
  | slotKeep hkey hcurrent hnode hask _ ih => exact .slotKeep hkey hcurrent hnode hask (ih hf)
  | slotNode hkey hcurrent hnode hask _ ih => exact .slotNode hkey hcurrent hnode hask (ih hf)
  | slotSplice hkey hcurrent hnode hask => exact .slotSplice hkey hcurrent hnode hask
  | noItems => exact .noItems
  | itemOther hnode _ ih => exact .itemOther hnode (ih hf)
  | itemFault hnode hcurrent hask => exact .itemFault hnode hcurrent hask
  | itemKeepStop hnode hcurrent hask _ hfault ih => exact .itemKeepStop hnode hcurrent hask (ih (hfault ▸ hf)) hfault
  | itemKeep hnode hcurrent hask _ hfault _ ih ih' =>
    exact .itemKeep hnode hcurrent hask (ih (hgoes hfault)) hfault (ih' hf)
  | itemNodeStop hnode hcurrent hask _ hfault ih => exact .itemNodeStop hnode hcurrent hask (ih (hfault ▸ hf)) hfault
  | itemNode hnode hcurrent hask _ hfault _ ih ih' =>
    exact .itemNode hnode hcurrent hask (ih (hgoes hfault)) hfault (ih' hf)
  | itemLost hnode hcurrent hask hsplit => exact .itemLost hnode hcurrent hask hsplit
  | itemSpliceStop hnode hcurrent hask hsplit _ hfault ih =>
    exact .itemSpliceStop hnode hcurrent hask hsplit (ih (hfault ▸ hf)) hfault
  | itemSplice hnode hcurrent hask hsplit _ hfault _ ih ih' =>
    exact .itemSplice hnode hcurrent hask hsplit (ih (hgoes hfault)) hfault (ih' hf)
  | noNodes => exact .noNodes
  | nodeStop hcurrent _ hfault ih => exact .nodeStop hcurrent (ih (hfault ▸ hf)) hfault
  | node hcurrent _ hfault _ ih ih' => exact .node hcurrent (ih (hgoes hfault)) hfault (ih' hf)

/-- **More fuel changes nothing**, if there was enough. -/
theorem run_eq_of_le (task : Task) {k : Nat} (hle : n ≤ k) (hf : (task.run V n t).fault ≠ some .exhausted) :
    task.run V k t = task.run V n t := by
  obtain ⟨qs, h⟩ := task.runs V n t
  have hmore : Runs V k task t qs (task.run V n t) := by
    induction hle with
    | refl => exact h
    | step _ ih => exact ih.succ hf
  exact hmore.eq_run

end Walk

end EsmLift
