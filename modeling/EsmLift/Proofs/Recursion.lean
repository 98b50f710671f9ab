import EsmLift.Proofs.Erasure
import EsmLift.Proofs.Lockstep

/-!
# `Proofs.Recursion` — the walk as a recursion that edits nothing

The walk edits a tree in place: it goes on behind new statements in a list that has just changed, and finds everything
again by its mark. What it is meant to do can be said without marks. At each position the visitor is asked once. If it
keeps the node, the fields of the node are next; if it puts another node there, the fields of that one; if it puts
statements in the place of an item, the fields of these, one after another. Here this is a recursion over plain values
that builds the new tree on its way back. It may go on forever, where answers bring new work; so it has a bound on the
depth, and no result if the bound is too small.

A fault stops the recursion, and what follows stays as it is.

## Contents

* `Rewritten`, `Rewritten.follow`: the result for a part of a tree, and for one part after another;
* `Recursion.each`, `Recursion.item`, `Recursion.items`, `Recursion.slot`, `Recursion.fields`, `Recursion.below`;
* `Recursion.rewrite`: the recursion from the root;
* `Visitor.observed`, `Walk.Runs.observed`: a visitor that writes down what it is asked;
* `Visitor.Blind`, `Visitor.Fair`: visitors that look at contents only, and that use no object twice.
-/

namespace EsmLift

/-- What takes the place of a part of a tree, the fault that stopped the recursion, and the memory of the visitor. -/
structure Rewritten (σ α : Type) where
  value : α
  fault : Option Fault
  memory : σ

namespace Rewritten

variable {σ α β : Type}

/-- The result of a larger part. -/
def map (f : α → β) (r : Rewritten σ α) : Rewritten σ β := ⟨f r.value, r.fault, r.memory⟩

/-- The result for the first parts of a list, and then for those in `rest`; these stay as they are after a fault. -/
def follow (first : Rewritten σ (List α)) (rest : List α) (next : σ → Option (Rewritten σ (List α))) :
    Option (Rewritten σ (List α)) :=
  match first.fault with
  | some fault => some ⟨first.value ++ rest, some fault, first.memory⟩
  | none => (next first.memory).map (Rewritten.map (first.value ++ ·))

end Rewritten

namespace Recursion

variable {σ : Type} (V : Visitor σ) (descend : Value → σ → Option (Rewritten σ Value))

/-- New statements, one after another: the visitor is not asked about them. -/
def each : List Value → σ → Option (Rewritten σ (List Value))
  | [], m => some ⟨[], none, m⟩
  | v :: rest, m => do
    let here ← descend v m
    (here.map ([·])).follow rest (each rest)

/-- What takes the place of an item of a list. -/
def item (owner v : Value) (m : σ) : Option (Rewritten σ (List Value)) :=
  if v.isNode then
    match V.enter v (some owner) m with
    | (.error fault, m) => some ⟨[v], some fault, m⟩
    | (.ok .keep, m) => (descend v m).map (Rewritten.map ([·]))
    | (.ok (.node n), m) => (descend n m).map (Rewritten.map ([·]))
    | (.ok (.splice request), m) => each descend request.nodes m
  else some ⟨[v], none, m⟩

/-- What takes the place of the items `todo` of the list `done ++ todo`; `owner` is the object around the list. -/
def items (owner : List Value → Value) (done : List Value) : List Value → σ → Option (Rewritten σ (List Value))
  | [], m => some ⟨[], none, m⟩
  | v :: rest, m => do
    let here ← item V descend (owner (done ++ v :: rest)) v m
    here.follow rest (items owner (done ++ here.value) rest)

/-- What takes the place of the value of one field; `owner` is the object around it. -/
def slot (owner : Value → Value) (key : String) (v : Value) (m : σ) : Option (Rewritten σ Value) :=
  if Syntax.metadataKeys.contains key then some ⟨v, none, m⟩
  else
    match v with
    | .list mark xs => (items V descend (fun ys => owner (.list mark ys)) [] xs m).map (Rewritten.map (.list mark))
    | v =>
      if v.isNode then
        match V.enter v (some (owner v)) m with
        | (.error fault, m) => some ⟨v, some fault, m⟩
        | (.ok .keep, m) => descend v m
        | (.ok (.node n), m) => descend n m
        | (.ok (.splice _), m) => some ⟨v, some (.fieldSplice key), m⟩
      else some ⟨v, none, m⟩

/-- What takes the place of the fields `todo` of the object with the fields `done ++ todo`. -/
def fields (mark : Nat) (done : Fields) : Fields → σ → Option (Rewritten σ Fields)
  | [], m => some ⟨[], none, m⟩
  | (key, v) :: rest, m => do
    let here ← slot V descend (fun w => .object mark (done ++ (key, w) :: rest)) key v m
    (here.map fun w => [(key, w)]).follow rest (fields mark (done ++ [(key, here.value)]) rest)

/-- A node whose fields are rewritten, to a bounded depth. -/
def below : Nat → Value → σ → Option (Rewritten σ Value)
  | 0, _, _ => none
  | depth + 1, .object mark fs, m => (fields V (below depth) mark [] fs m).map (Rewritten.map (.object mark))
  | _ + 1, v, m => some ⟨v, some .notObject, m⟩

/-- **The recursion from the root.** The result is the root, and beside it the tree that was given; the two differ if
another node takes the place of the root. -/
def rewrite (depth : Nat) (tree : Value) (m : σ) : Option (Rewritten σ (Value × Value)) :=
  match V.enter tree none m with
  | (.error fault, m) => some ⟨(tree, tree), some fault, m⟩
  | (.ok .keep, m) => (below V depth tree m).map (Rewritten.map fun root => (root, root))
  | (.ok (.node n), m) => (below V depth n m).map (Rewritten.map fun root => (root, tree))
  | (.ok (.splice _), m) => some ⟨(tree, tree), some .rootSplice, m⟩

end Recursion

/-! ## Visitors -/

/-- The visitor that also writes down what it is asked: the node, and the object that owns it. -/
def Visitor.observed {σ : Type} (V : Visitor σ) : Visitor (σ × List (Value × Option Value)) where
  enter v owner m := ((V.enter v owner m.1).1, (V.enter v owner m.1).2, m.2 ++ [(v, owner)])

/-- The questions of a walk, in order. -/
def Visitor.questions {σ : Type} (V : Visitor σ) (fuel : Nat) (tree : Value) (m : σ) : List (Value × Option Value) :=
  (walk V.observed fuel tree (m, [])).memory.2

/-- A visitor that writes down what it is asked goes the same way. -/
theorem walk_observed {σ : Type} (V : Visitor σ) (fuel : Nat) (tree : Value) (m : σ) :
    walk V fuel tree m = (walk V.observed fuel tree (m, [])).map Prod.fst :=
  walk_map (f := Prod.fst) (W := V.observed) (fun _ _ _ => rfl) fuel tree (m, [])

/-- What is written down are the questions. -/
theorem Visitor.remember_observed {σ : Type} (V : Visitor σ) (m : σ) (log qs : List Question) :
    V.observed.remember (m, log) qs = (V.remember m qs, log ++ qs) := by
  induction qs generalizing m log with
  | nil => rw [List.append_nil]; rfl
  | cons q rest ih =>
    obtain ⟨v, owner⟩ := q
    refine (ih (V.enter v owner m).2 (log ++ [(v, owner)])).trans ?_
    rw [List.append_assoc]
    rfl

/-- One question. -/
theorem Visitor.ask_observed {σ : Type} {V : Visitor σ} {v : Value} {owner : Option Value} {t' : Trail σ}
    {answer : Except Fault Answer} {u : Trail (σ × List Question)}
    (h : V.ask v owner (u.map Prod.fst) = (answer, t')) :
    ∃ u', V.observed.ask v owner u = (answer, u') ∧ u'.map Prod.fst = t' ∧ u'.memory.2 = u.memory.2 ++ [(v, owner)] := by
  have halong : Visitor.Along Prod.fst V.observed V := fun _ _ _ => rfl
  obtain ⟨u', hask, hmap⟩ := halong.exists_ask h
  exact ⟨u', hask, hmap, congrArg Prod.snd (Visitor.memory_ask hask)⟩

/-- **A walk through a part of a tree writes down its questions**, behind those that are there. -/
theorem Walk.Runs.observed {σ : Type} {V : Visitor σ} {n : Nat} {task : Task} {t : Trail σ} {qs : List Question}
    {w : Walked σ task.Result} (h : Runs V n task t qs w) {u : Trail (σ × List Question)} (hu : u.map Prod.fst = t) :
    (task.run V.observed n u).trail.memory.2 = u.memory.2 ++ qs := by
  have halong : Visitor.Along Prod.fst V.observed V := fun _ _ _ => rfl
  obtain ⟨w', hw', _⟩ := Walk.Runs.lift halong h hu
  rw [hw'.eq_run, hw'.memory_eq, Visitor.remember_observed]

/-- An answer without marks. -/
def Answer.erase : Answer → Answer
  | .keep => .keep
  | .node v => .node v.erase
  | .splice r => .splice r.erase

/-- The nodes that an answer puts in. -/
def Answer.nodes : Answer → List Value
  | .keep => []
  | .node v => [v]
  | .splice r => r.nodes

/-- A question without marks. -/
def eraseQuestion (q : Value × Option Value) : Value × Option Value := (q.1.erase, q.2.map Value.erase)

/-- No object and no list stands at two places in a value. -/
def Value.Unshared (v : Value) : Prop := ∀ k, 0 < k → v.marks.count k ≤ 1

/-- The visitor looks at contents only: at a node without marks it gives the same answer, without marks, and memories
that are alike stay alike. -/
def Visitor.Blind {σ : Type} (V : Visitor σ) (alike : σ → σ → Prop) : Prop :=
  ∀ v owner m m', alike m m' →
    (V.enter v.erase (owner.map Value.erase) m').1 = (V.enter v owner m).1.map Answer.erase ∧
      alike (V.enter v owner m).2 (V.enter v.erase (owner.map Value.erase) m').2

/-- The visitor uses no object twice: what it puts in is new, or comes from the node it is asked about, which has no
object twice; it splices at that node; and in the place of the root it puts a node that is new throughout. -/
structure Visitor.Fair {σ : Type} (V : Visitor σ) : Prop where
  own : ∀ {v owner m answer}, v.Unshared → (V.enter v owner m).1 = .ok answer →
    ∀ k, 0 < k → (Value.marksItems answer.nodes).count k ≤ v.marks.count k
  here : ∀ {v owner m request}, (V.enter v owner m).1 = .ok (.splice request) → request.target = v
  root : ∀ {v m n}, (V.enter v none m).1 = .ok (.node n) → ∀ k ∈ n.marks, k = 0

variable {σ : Type} {V : Visitor σ}

/-- Writing questions down does not depend on marks. -/
theorem Visitor.Blind.observed {alike : σ → σ → Prop} (h : V.Blind alike) :
    V.observed.Blind fun m m' => alike m.1 m'.1 ∧ m.2.map eraseQuestion = m'.2 := by
  intro v owner m m' ⟨hmemory, hlog⟩
  obtain ⟨hanswer, hlater⟩ := h v owner m.1 m'.1 hmemory
  refine ⟨hanswer, hlater, ?_⟩
  show (m.2 ++ [(v, owner)]).map eraseQuestion = m'.2 ++ [(v.erase, owner.map Value.erase)]
  rw [List.map_append, hlog]
  rfl

theorem Visitor.Fair.observed (h : V.Fair) : V.observed.Fair where
  own hv hanswer := h.own hv hanswer
  here hanswer := h.here hanswer
  root hanswer := h.root hanswer

end EsmLift
