import EsmLift.Proofs.Captures

/-!
# `Proofs.Composition` — a matcher behind a test

A matcher can be part of another one as it stands, or it can be **hidden** behind a test that runs it. The names of
a hidden matcher are not seen by the constructors around it, so a name that is bound twice may get past their check;
then the match itself finds it. A `Layout` is a pattern tree in which some parts are hidden, and `Layout.bare` is the
same tree with all parts in the open.

Hiding parts changes nothing about a tree that can be built bare. A tree that cannot be built bare may be built with
parts hidden, but then no value matches it: a match that gets to its end has bound every name of the tree, the hidden
ones too, and the captures are distinct.

## Contents

* `Layout`, `Layout.build`, `Layout.bare`, `Layout.names`;
* `build_of_nodup`, `names_of_bare`: what the constructors check;
* `run_bare`: hiding does not change a match;
* `run_outcome`: a match that succeeds binds all names, once;
* `build_or_barren`: both together.
-/

namespace EsmLift

/-- A pattern tree with parts that are hidden behind tests. -/
inductive Layout where
  /-- Values deeply equal to the given one. -/
  | literal (expected : Value)
  /-- Values that pass a test with the answer yes or no. -/
  | test (p : Value → Bool)
  /-- Objects with the listed fields. -/
  | fields (subs : List (String × Layout))
  /-- Values bound to a name. -/
  | capture (name : String) (inner : Layout)
  /-- Values that pass the test which runs the inner matcher. -/
  | hidden (inner : Layout)

namespace Layout

mutual
/-- Builds the pattern with the checked constructors, inner parts first. -/
def build : Layout → Except Fault Pattern
  | literal expected => .ok (.literal expected)
  | test p => .ok (.test (Test.ofBool p))
  | fields subs =>
    match buildFields subs with
    | .error fault => .error fault
    | .ok ps => Pattern.ofFields ps
  | capture name inner =>
    match build inner with
    | .error fault => .error fault
    | .ok p => Pattern.named name p
  | hidden inner =>
    match build inner with
    | .error fault => .error fault
    | .ok p => .ok (.test p.run)

/-- Builds the patterns of fields, the first fault winning. -/
def buildFields : List (String × Layout) → Except Fault (List (String × Pattern))
  | [] => .ok []
  | (key, t) :: rest =>
    match build t with
    | .error fault => .error fault
    | .ok p =>
      match buildFields rest with
      | .error fault => .error fault
      | .ok ps => .ok ((key, p) :: ps)
end

mutual
/-- The tree with all parts in the open. -/
def bare : Layout → Layout
  | literal expected => literal expected
  | test p => test p
  | fields subs => fields (bareFields subs)
  | capture name inner => capture name (bare inner)
  | hidden inner => bare inner

def bareFields : List (String × Layout) → List (String × Layout)
  | [] => []
  | (key, t) :: rest => (key, bare t) :: bareFields rest
end

mutual
/-- All the names in a tree, the hidden ones too. -/
def names : Layout → List String
  | literal _ => []
  | test _ => []
  | fields subs => namesOfFields subs
  | capture name inner => name :: names inner
  | hidden inner => names inner

def namesOfFields : List (String × Layout) → List String
  | [] => []
  | (_, t) :: rest => names t ++ namesOfFields rest
end

/-! ## Inversion of the constructors -/

theorem build_fields {subs : List (String × Layout)} {w : Pattern} (h : (fields subs).build = .ok w) :
    ∃ ps, buildFields subs = .ok ps ∧ w = .fields ps ∧ (Pattern.namesOfFields ps).Nodup := by
  rw [build] at h
  cases hps : buildFields subs with
  | error fault => rw [hps] at h; cases h
  | ok ps => rw [hps] at h; exact ⟨ps, rfl, Pattern.ofFields_ok.mp h⟩

theorem build_capture {name : String} {inner : Layout} {w : Pattern} (h : (capture name inner).build = .ok w) :
    ∃ p, inner.build = .ok p ∧ w = .capture name p ∧ (name :: p.names).Nodup := by
  rw [build] at h
  cases hp : inner.build with
  | error fault => rw [hp] at h; cases h
  | ok p => rw [hp] at h; exact ⟨p, rfl, Pattern.named_ok.mp h⟩

theorem build_hidden {inner : Layout} {w : Pattern} (h : (hidden inner).build = .ok w) :
    ∃ p, inner.build = .ok p ∧ w = .test p.run := by
  rw [build] at h
  cases hp : inner.build with
  | error fault => rw [hp] at h; cases h
  | ok p => rw [hp] at h; exact ⟨p, rfl, (Except.ok.inj h).symm⟩

theorem buildFields_cons {key : String} {t : Layout} {rest : List (String × Layout)} {ws : List (String × Pattern)}
    (h : buildFields ((key, t) :: rest) = .ok ws) :
    ∃ p ps, t.build = .ok p ∧ buildFields rest = .ok ps ∧ ws = (key, p) :: ps := by
  rw [buildFields] at h
  cases hp : t.build with
  | error fault => rw [hp] at h; cases h
  | ok p =>
    cases hps : buildFields rest with
    | error fault => rw [hp, hps] at h; cases h
    | ok ps => rw [hp, hps] at h; exact ⟨p, ps, rfl, rfl, (Except.ok.inj h).symm⟩

/-! ## What the constructors check -/

mutual
/-- The names that can be seen are among all the names, in order. -/
theorem names_sublist : (t : Layout) → {w : Pattern} → t.build = .ok w → w.names.Sublist t.names
  | literal _, _, h => by cases h; exact .slnil
  | test _, _, h => by cases h; exact .slnil
  | fields subs, _, h => by
    obtain ⟨ps, hps, rfl, _⟩ := build_fields h
    exact namesOfFields_sublist subs hps
  | capture name inner, _, h => by
    obtain ⟨p, hp, rfl, _⟩ := build_capture h
    exact (names_sublist inner hp).cons_cons name
  | hidden _, _, h => by
    obtain ⟨p, _, rfl⟩ := build_hidden h
    exact List.nil_sublist _

theorem namesOfFields_sublist : (subs : List (String × Layout)) → {ps : List (String × Pattern)} →
    buildFields subs = .ok ps → (Pattern.namesOfFields ps).Sublist (namesOfFields subs)
  | [], _, h => by cases h; exact .slnil
  | (key, t) :: rest, _, h => by
    obtain ⟨p, ps, hp, hps, rfl⟩ := buildFields_cons h
    exact (names_sublist t hp).append (namesOfFields_sublist rest hps)
end

mutual
/-- A tree with distinct names can be built, whatever is hidden in it. -/
theorem build_of_nodup : (t : Layout) → t.names.Nodup → ∃ w, t.build = .ok w
  | literal _, _ => ⟨_, rfl⟩
  | test _, _ => ⟨_, rfl⟩
  | fields subs, h => by
    obtain ⟨ps, hps⟩ := buildFields_of_nodup subs h
    have hnames := (namesOfFields_sublist subs hps).nodup h
    exact ⟨.fields ps, by rw [build, hps]; exact Pattern.ofFields_ok.mpr ⟨rfl, hnames⟩⟩
  | capture name inner, h => by
    obtain ⟨p, hp⟩ := build_of_nodup inner (List.nodup_cons.mp h).2
    have hnames := ((names_sublist inner hp).cons_cons name).nodup h
    exact ⟨.capture name p, by rw [build, hp]; exact Pattern.named_ok.mpr ⟨rfl, hnames⟩⟩
  | hidden inner, h => by
    obtain ⟨p, hp⟩ := build_of_nodup inner h
    exact ⟨.test p.run, by rw [build, hp]⟩

theorem buildFields_of_nodup : (subs : List (String × Layout)) → (namesOfFields subs).Nodup →
    ∃ ps, buildFields subs = .ok ps
  | [], _ => ⟨[], rfl⟩
  | (key, t) :: rest, h => by
    obtain ⟨ht, hrest, _⟩ := List.nodup_append.mp h
    obtain ⟨p, hp⟩ := build_of_nodup t ht
    obtain ⟨ps, hps⟩ := buildFields_of_nodup rest hrest
    exact ⟨(key, p) :: ps, by rw [buildFields, hp, hps]⟩
end

mutual
theorem names_bare : (t : Layout) → t.bare.names = t.names
  | literal _ => rfl
  | test _ => rfl
  | fields subs => by rw [bare, names, names, namesOfFields_bare subs]
  | capture name inner => by rw [bare, names, names, names_bare inner]
  | hidden inner => by rw [bare, names, names_bare inner]

theorem namesOfFields_bare : (subs : List (String × Layout)) → namesOfFields (bareFields subs) = namesOfFields subs
  | [] => rfl
  | (key, t) :: rest => by rw [bareFields, namesOfFields, namesOfFields, names_bare t, namesOfFields_bare rest]
end

mutual
/-- In the open all names are seen, and the constructors ask that they are distinct. -/
theorem names_of_bare : (t : Layout) → {p : Pattern} → t.bare.build = .ok p → p.names = t.names ∧ t.names.Nodup
  | literal _, _, h => by cases h; exact ⟨rfl, .nil⟩
  | test _, _, h => by cases h; exact ⟨rfl, .nil⟩
  | fields subs, _, h => by
    obtain ⟨ps, hps, rfl, hnames⟩ := build_fields h
    have heq := namesOfFields_of_bare subs hps
    rw [heq] at hnames
    exact ⟨heq, hnames⟩
  | capture name inner, _, h => by
    obtain ⟨p, hp, rfl, hnames⟩ := build_capture h
    have heq := (names_of_bare inner hp).1
    rw [heq] at hnames
    exact ⟨congrArg (name :: ·) heq, hnames⟩
  | hidden inner, _, h => names_of_bare inner h

theorem namesOfFields_of_bare : (subs : List (String × Layout)) → {ps : List (String × Pattern)} →
    buildFields (bareFields subs) = .ok ps → Pattern.namesOfFields ps = namesOfFields subs
  | [], _, h => by cases h; rfl
  | (key, t) :: rest, _, h => by
    obtain ⟨p, ps, hp, hps, rfl⟩ := buildFields_cons h
    rw [Pattern.namesOfFields, namesOfFields, (names_of_bare t hp).1, namesOfFields_of_bare rest hps]
end

/-! ## Matches -/

mutual
/-- Hiding parts of a tree does not change its matches. -/
theorem run_bare : (t : Layout) → {w p : Pattern} → t.build = .ok w → t.bare.build = .ok p → w.run = p.run
  | literal _, _, _, hw, hp => by cases hw; cases hp; rfl
  | test _, _, _, hw, hp => by cases hw; cases hp; rfl
  | fields subs, _, _, hw, hp => by
    obtain ⟨ws, hws, rfl, _⟩ := build_fields hw
    obtain ⟨ps, hps, rfl, _⟩ := build_fields hp
    funext v
    cases v with
    | object m fs => exact runFields_bare subs hws hps fs []
    | _ => rfl
  | capture name inner, _, _, hw, hp => by
    obtain ⟨w, hin, rfl, _⟩ := build_capture hw
    obtain ⟨p, hbare, rfl, _⟩ := build_capture hp
    funext v
    rw [Pattern.run, Pattern.run, run_bare inner hin hbare]
  | hidden inner, _, _, hw, hp => by
    obtain ⟨w, hin, rfl⟩ := build_hidden hw
    funext v
    rw [Pattern.run, run_bare inner hin hp]

theorem runFields_bare : (subs : List (String × Layout)) → {ws ps : List (String × Pattern)} →
    buildFields subs = .ok ws → buildFields (bareFields subs) = .ok ps → (fs : Fields) → (bound : Captures) →
    Pattern.runFields ws fs bound = Pattern.runFields ps fs bound
  | [], _, _, hws, hps, _, _ => by cases hws; cases hps; rfl
  | (key, t) :: rest, _, _, hws, hps, fs, bound => by
    obtain ⟨w, ws, hw, hrest, rfl⟩ := buildFields_cons hws
    obtain ⟨p, ps, hp, hbare, rfl⟩ := buildFields_cons hps
    rw [Pattern.runFields, Pattern.runFields, run_bare t hw hp]
    simp only [runFields_bare rest hrest hbare fs]
end

/-- The outcome of a match that does not succeed: no match, or a name that is bound twice. -/
def Barren (outcome : Except Fault (Option Captures)) : Prop :=
  outcome = .ok none ∨ ∃ name, outcome = .error (.duplicateCapture name)

/-- Captures are put together with distinct names, or one of them is bound twice. -/
theorem merge_outcome {bound : Captures} (extra : Captures) (hbound : (bound.map Prod.fst).Nodup) :
    (∃ name, bound.merge extra = .error (.duplicateCapture name)) ∨
      bound.merge extra = .ok (bound ++ extra) ∧ ((bound ++ extra).map Prod.fst).Nodup := by
  induction extra generalizing bound with
  | nil => exact .inr ⟨by rw [Captures.merge, List.append_nil], by rwa [List.append_nil]⟩
  | cons c rest ih =>
    obtain ⟨name, v⟩ := c
    rw [Captures.merge]
    by_cases hany : bound.any (·.1 == name) = true
    · exact .inl ⟨name, if_pos hany⟩
    · have hfresh : name ∉ bound.map Prod.fst := by
        intro hmem
        obtain ⟨c, hc, rfl⟩ := List.mem_map.mp hmem
        exact hany (List.any_eq_true.mpr ⟨c, hc, beq_self_eq_true _⟩)
      have hnames : ((bound ++ [(name, v)]).map Prod.fst).Nodup := by
        rw [List.map_append, List.map_singleton]
        refine List.nodup_append.mpr ⟨hbound, by simp, fun a ha b hb heq => ?_⟩
        rw [heq, List.mem_singleton.mp hb] at ha
        exact hfresh ha
      rw [if_neg hany, show bound ++ (name, v) :: rest = bound ++ [(name, v)] ++ rest by simp]
      exact ih hnames

mutual
/-- A match that succeeds has bound all the names of the tree, and they are distinct. -/
theorem run_outcome : (t : Layout) → {w : Pattern} → t.build = .ok w → (v : Value) → Barren (w.run v) ∨
    ∃ captures, w.run v = .ok (some captures) ∧ captures.map Prod.fst = t.names ∧ t.names.Nodup
  | literal expected, _, h, v => by
    cases h
    rw [Pattern.run]
    split
    · exact .inr ⟨[], rfl, rfl, .nil⟩
    · exact .inl (.inl rfl)
  | test p, _, h, v => by
    cases h
    rw [Pattern.run, Test.ofBool]
    split
    · exact .inr ⟨[], rfl, rfl, .nil⟩
    · exact .inl (.inl rfl)
  | fields subs, _, h, v => by
    obtain ⟨ps, hps, rfl, _⟩ := build_fields h
    cases v with
    | object m fs => exact runFields_outcome subs hps fs [] .nil
    | _ => exact .inl (.inl rfl)
  | capture name inner, _, h, v => by
    obtain ⟨p, hp, rfl, _⟩ := build_capture h
    rw [Pattern.run]
    rcases run_outcome inner hp v with (hnone | ⟨other, hfault⟩) | ⟨captures, hsome, hnames, _⟩
    · exact .inl (.inl (by rw [hnone]))
    · exact .inl (.inr ⟨other, by rw [hfault]⟩)
    · rw [hsome]
      dsimp only
      have hone : (([(name, v)] : Captures).map Prod.fst).Nodup := by simp
      rcases merge_outcome captures hone with ⟨other, hfault⟩ | ⟨hok, hdistinct⟩
      · exact .inl (.inr ⟨other, by rw [hfault]; rfl⟩)
      · have hall : ([(name, v)] ++ captures).map Prod.fst = (capture name inner).names :=
          congrArg (name :: ·) hnames
        rw [hall] at hdistinct
        exact .inr ⟨_, by rw [hok]; rfl, hall, hdistinct⟩
  | hidden inner, _, h, v => by
    obtain ⟨p, hp, rfl⟩ := build_hidden h
    exact run_outcome inner hp v

theorem runFields_outcome : (subs : List (String × Layout)) → {ps : List (String × Pattern)} →
    buildFields subs = .ok ps → (fs : Fields) → (bound : Captures) → (bound.map Prod.fst).Nodup →
    Barren (Pattern.runFields ps fs bound) ∨
      ∃ captures, Pattern.runFields ps fs bound = .ok (some captures) ∧
        captures.map Prod.fst = bound.map Prod.fst ++ namesOfFields subs ∧
        (bound.map Prod.fst ++ namesOfFields subs).Nodup
  | [], _, h, _, bound, hbound => by
    cases h
    rw [namesOfFields, List.append_nil]
    exact .inr ⟨bound, rfl, rfl, hbound⟩
  | (key, t) :: rest, _, h, fs, bound, hbound => by
    obtain ⟨p, ps, hp, hps, rfl⟩ := buildFields_cons h
    rw [Pattern.runFields]
    cases fs.lookup key with
    | none => exact .inl (.inl rfl)
    | some v =>
      dsimp only
      rcases run_outcome t hp v with (hnone | ⟨other, hfault⟩) | ⟨captures, hsome, hnames, _⟩
      · exact .inl (.inl (by rw [hnone]))
      · exact .inl (.inr ⟨other, by rw [hfault]⟩)
      · rw [hsome]
        dsimp only
        rcases merge_outcome captures hbound with ⟨other, hfault⟩ | ⟨hok, hdistinct⟩
        · exact .inl (.inr ⟨other, by rw [hfault]⟩)
        · rw [hok, namesOfFields, ← List.append_assoc, ← hnames, ← List.map_append]
          exact runFields_outcome rest hps fs (bound ++ captures) hdistinct
end

theorem ofFields_fault {subs : List (String × Pattern)} {fault : Fault} (h : Pattern.ofFields subs = .error fault) :
    ∃ name, fault = .duplicateCapture name := by
  unfold Pattern.ofFields at h
  split at h
  · next name _ => exact ⟨name, (Except.error.inj h).symm⟩
  · cases h

theorem named_fault {name : String} {inner : Pattern} {fault : Fault} (h : Pattern.named name inner = .error fault) :
    ∃ name, fault = .duplicateCapture name := by
  unfold Pattern.named at h
  split at h
  · next name _ => exact ⟨name, (Except.error.inj h).symm⟩
  · cases h

mutual
/-- The constructors refuse a tree only because a name is bound twice. -/
theorem build_fault : (t : Layout) → {fault : Fault} → t.build = .error fault →
    ∃ name, fault = .duplicateCapture name
  | literal _, _, h => nomatch h
  | test _, _, h => nomatch h
  | fields subs, _, h => by
    rw [build] at h
    cases hps : buildFields subs with
    | error fault => rw [hps] at h; cases h; exact buildFields_fault subs hps
    | ok ps => rw [hps] at h; exact ofFields_fault h
  | capture name inner, _, h => by
    rw [build] at h
    cases hp : inner.build with
    | error fault => rw [hp] at h; cases h; exact build_fault inner hp
    | ok p => rw [hp] at h; exact named_fault h
  | hidden inner, _, h => by
    rw [build] at h
    cases hp : inner.build with
    | error fault => rw [hp] at h; cases h; exact build_fault inner hp
    | ok p => rw [hp] at h; cases h

theorem buildFields_fault : (subs : List (String × Layout)) → {fault : Fault} → buildFields subs = .error fault →
    ∃ name, fault = .duplicateCapture name
  | [], _, h => nomatch h
  | (key, t) :: rest, _, h => by
    rw [buildFields] at h
    cases hp : t.build with
    | error fault => rw [hp] at h; cases h; exact build_fault t hp
    | ok p =>
      cases hps : buildFields rest with
      | error fault => rw [hp, hps] at h; cases h; exact buildFields_fault rest hps
      | ok ps => rw [hp, hps] at h; cases h
end

/-- **A matcher behind a test is the matcher.** If a tree can be built with all parts in the open, it can be built
with any parts hidden, and every match ends the same. If it cannot, for a name that is bound twice, and yet can be
built with parts hidden, then no value matches: there is no match, or a name is found to be bound twice. -/
theorem build_or_barren (t : Layout) :
    (∀ p, t.bare.build = .ok p → ∃ w, t.build = .ok w ∧ ∀ v, w.run v = p.run v) ∧
      ∀ fault, t.bare.build = .error fault → (∃ name, fault = .duplicateCapture name) ∧
        ∀ w, t.build = .ok w → ∀ v, w.run v = .ok none ∨ ∃ name, w.run v = .error (.duplicateCapture name) := by
  refine ⟨fun p hp => ?_, fun fault hfault => ⟨build_fault t.bare hfault, fun w hw v => ?_⟩⟩
  · obtain ⟨w, hw⟩ := build_of_nodup t (names_of_bare t hp).2
    exact ⟨w, hw, congrFun (run_bare t hw hp)⟩
  · rcases run_outcome t hw v with hbarren | ⟨captures, _, _, hnames⟩
    · exact hbarren
    · -- distinct names would have let the bare tree be built
      obtain ⟨p, hp⟩ := build_of_nodup t.bare (names_bare t ▸ hnames)
      rw [hp] at hfault
      cases hfault

/-- Two captures with different names, one of them hidden. -/
def sampleApart : Layout :=
  fields [("id", hidden (capture "id" (test fun _ => true))), ("init", capture "source" (literal (.text "m")))]

/-- A capture around a hidden one of the same name. -/
def sampleClash : Layout := capture "id" (hidden (fields [("name", capture "id" (test fun _ => true))]))

theorem build_or_barren_samples :
    (∃ p, sampleApart.bare.build = .ok p ∧ ∃ w, sampleApart.build = .ok w ∧ ∀ v, w.run v = p.run v) ∧
      sampleClash.bare.build = .error (.duplicateCapture "id") ∧ ∃ w, sampleClash.build = .ok w ∧
        ∀ v, w.run v = .ok none ∨ ∃ name, w.run v = .error (.duplicateCapture name) :=
  ⟨⟨_, rfl, (build_or_barren sampleApart).1 _ rfl⟩, rfl, _, rfl, ((build_or_barren sampleClash).2 _ rfl).2 _ rfl⟩

end Layout

end EsmLift
