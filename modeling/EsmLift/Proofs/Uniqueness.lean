import EsmLift.Pattern.Description
import EsmLift.Proofs.Captures
import Mathlib.Data.List.Nodup

/-!
# `Proofs.Uniqueness` — a description binds each name once

A description is written down with captures and patterns in it that are built before the description around them: a
capture checks its own name against those inside it, a pattern of fields checks the names of its fields, and nobody
looks at the whole. A `Sketch` is a description with these parts still to be built, and `Sketch.compile` builds them,
inner ones first and earlier ones first, and then compiles what is left.

All the checks together are one: the sketch compiles exactly if its names, listed as they are declared, are distinct. If
they are not, the check that fails need not be the one that sees the first repetition in that list, but the name it
reports is repeated.

## Contents

* `Pattern.Accepted`: patterns that passed the checks, whatever their tests do;
* `Sketch`, `Sketch.build`, `Sketch.compile`, `Sketch.names`;
* `Verdict`: what a check of names comes to; `Pattern.ofFields_verdict`, `Pattern.named_verdict`: one check;
* `Description.compile_verdict`, `Sketch.build_verdict`: the checks of the two stages;
* `Sketch.compile_checks_names`.
-/

namespace EsmLift

/-! ## Sketches -/

/-- A pattern that its constructors accepted. -/
inductive Pattern.Accepted : Pattern → Prop
  | literal (expected : Value) : Accepted (.literal expected)
  | test (check : Test) : Accepted (.test check)
  | fields {subs : List (String × Pattern)} {p : Pattern} (hsubs : ∀ s ∈ subs, Accepted s.2)
      (hp : ofFields subs = .ok p) : Accepted p
  | capture {name : String} {inner p : Pattern} (hinner : Accepted inner) (hp : named name inner = .ok p) : Accepted p

/-- A description with parts that are still to be built. -/
inductive Sketch where
  | plain (v : Value)
  | test (check : Test)
  /-- A pattern that was made before. -/
  | ready (p : Pattern) (accepted : p.Accepted)
  | mapping (entries : List (String × Sketch))
  /-- A part that is compiled on its own, before what is around it. -/
  | compiled (inner : Sketch)
  /-- A part that is bound to a name. -/
  | capture (name : String) (inner : Sketch)

namespace Sketch

mutual
/-- Builds the parts of a sketch; the first fault wins. -/
def build : Sketch → Except Fault Description
  | plain v => .ok (.plain v)
  | test check => .ok (.test check)
  | ready p _ => .ok (.pattern p)
  | mapping entries =>
    match buildEntries entries with
    | .error fault => .error fault
    | .ok ds => .ok (.mapping ds)
  | compiled inner =>
    match build inner with
    | .error fault => .error fault
    | .ok d =>
      match d.compile with
      | .error fault => .error fault
      | .ok p => .ok (.pattern p)
  | capture name inner =>
    match build inner with
    | .error fault => .error fault
    | .ok d =>
      match d.extract name with
      | .error fault => .error fault
      | .ok p => .ok (.pattern p)

/-- Builds the parts of the entries of a mapping, one entry after another. -/
def buildEntries : List (String × Sketch) → Except Fault (List (String × Description))
  | [] => .ok []
  | (key, s) :: rest =>
    match build s with
    | .error fault => .error fault
    | .ok d =>
      match buildEntries rest with
      | .error fault => .error fault
      | .ok ds => .ok ((key, d) :: ds)
end

/-- The pattern of a sketch: its parts are built, and then the whole is compiled. -/
def compile (s : Sketch) : Except Fault Pattern :=
  match s.build with
  | .error fault => .error fault
  | .ok d => d.compile

mutual
/-- The names in a sketch, as they are declared: a capture before what is inside it, and entries in their order. Names
inside tests are not seen. -/
def names : Sketch → List String
  | plain _ => []
  | test _ => []
  | ready p _ => p.names
  | mapping entries => namesOfEntries entries
  | compiled inner => names inner
  | capture name inner => name :: names inner

/-- The names in the entries of a mapping. -/
def namesOfEntries : List (String × Sketch) → List String
  | [] => []
  | (_, s) :: rest => names s ++ namesOfEntries rest
end

end Sketch

/-! ## One check -/

/-- What a check of the given names comes to: something good is made, or a name that is repeated among them is
reported. -/
def Verdict {α : Type} (names : List String) (Good : α → Prop) (outcome : Except Fault α) : Prop :=
  (∃ a, outcome = .ok a ∧ Good a) ∨ ∃ name, outcome = .error (.duplicateCapture name) ∧ 2 ≤ names.count name

/-- The names of a pattern are the given ones, and they are distinct. -/
def Pattern.Binds (names : List String) (p : Pattern) : Prop := p.names = names ∧ names.Nodup

namespace Verdict

variable {α β : Type} {names names' : List String} {Good : α → Prop} {Good' : β → Prop}

theorem ok {a : α} (h : Good a) : Verdict names Good (.ok a) := .inl ⟨a, rfl, h⟩

/-- A check of some of the names comes first: its fault is the fault of the whole, and else the whole goes on. -/
theorem bind {first : Except Fault α} {whole : Except Fault β} (h : Verdict names Good first)
    (hsub : names.Sublist names') (hstop : ∀ fault, first = .error fault → whole = .error fault)
    (hnext : ∀ a, first = .ok a → Good a → Verdict names' Good' whole) : Verdict names' Good' whole := by
  rcases h with ⟨a, hok, ha⟩ | ⟨name, hfault, hcount⟩
  · exact hnext a hok ha
  · exact .inr ⟨name, hstop _ hfault, Nat.le_trans hcount (hsub.count_le name)⟩

end Verdict

namespace Pattern

/-- The name that is reported was seen before, or it is repeated. -/
theorem repeated?_eq_some {seen names : List String} {name : String} (h : repeated? seen names = some name) :
    (name ∈ seen ∧ name ∈ names) ∨ 2 ≤ names.count name := by
  induction names generalizing seen with
  | nil => cases h
  | cons first rest ih =>
    rw [repeated?] at h
    by_cases hseen : seen.contains first = true
    · rw [if_pos hseen] at h
      obtain rfl := Option.some.inj h
      exact .inl ⟨by simpa using hseen, List.mem_cons_self⟩
    · rw [if_neg hseen] at h
      rcases ih h with ⟨hmem, hrest⟩ | hcount
      · rcases List.mem_cons.mp hmem with rfl | hmem
        · have hpos := List.count_pos_iff.mpr hrest
          rw [List.count_cons_self]
          exact .inr (by omega)
        · exact .inl ⟨hmem, List.mem_cons_of_mem _ hrest⟩
      · exact .inr (Nat.le_trans hcount List.count_le_count_cons)

/-- The search for a repetition finds none among distinct names, and else a name that is repeated. -/
theorem repeated?_cases (names : List String) :
    (repeated? [] names = none ∧ names.Nodup) ∨ ∃ name, repeated? [] names = some name ∧ 2 ≤ names.count name := by
  cases h : repeated? [] names with
  | none => exact .inl ⟨rfl, (repeated?_eq_none.mp h).1⟩
  | some name => exact .inr ⟨name, rfl, (repeated?_eq_some h).resolve_left fun hmem => List.not_mem_nil hmem.1⟩

/-- **The check of fields.** -/
theorem ofFields_verdict (subs : List (String × Pattern)) :
    Verdict (namesOfFields subs) (Binds (namesOfFields subs)) (ofFields subs) := by
  rcases repeated?_cases (namesOfFields subs) with ⟨_, hnodup⟩ | ⟨name, hname, hcount⟩
  · exact .inl ⟨.fields subs, ofFields_ok.mpr ⟨rfl, hnodup⟩, rfl, hnodup⟩
  · exact .inr ⟨name, by rw [ofFields, hname], hcount⟩

/-- **The check of a capture.** -/
theorem named_verdict (name : String) (inner : Pattern) :
    Verdict (name :: inner.names) (Binds (name :: inner.names)) (named name inner) := by
  rcases repeated?_cases (name :: inner.names) with ⟨_, hnodup⟩ | ⟨other, hother, hcount⟩
  · exact .inl ⟨.capture name inner, named_ok.mpr ⟨rfl, hnodup⟩, rfl, hnodup⟩
  · exact .inr ⟨other, by rw [named, hother], hcount⟩

/-- An accepted pattern binds no name twice. -/
theorem Accepted.nodup {p : Pattern} (h : p.Accepted) : p.names.Nodup := by
  cases h with
  | literal | test => exact .nil
  | fields _ hp =>
    obtain ⟨rfl, hnames⟩ := ofFields_ok.mp hp
    exact hnames
  | capture _ hp =>
    obtain ⟨rfl, hnames⟩ := named_ok.mp hp
    exact hnames

mutual
/-- A plain value binds no name. -/
theorem names_ofValue : (v : Value) → (ofValue v).names = []
  | .object _ fs => by rw [ofValue, names, namesOfFields_ofPlainFields fs]
  | .null | .bool _ | .int _ | .double _ | .text _ | .list .. | .tuple _ => rfl

theorem namesOfFields_ofPlainFields : (fs : List (String × Value)) → namesOfFields (ofPlainFields fs) = []
  | [] => rfl
  | (_, v) :: rest => by rw [ofPlainFields, namesOfFields, names_ofValue v, namesOfFields_ofPlainFields rest]; rfl
end

end Pattern

/-! ## The two stages -/

namespace Description

mutual
/-- The names in a description, as they are declared. -/
def names : Description → List String
  | plain _ => []
  | test _ => []
  | pattern p => p.names
  | mapping entries => namesOfEntries entries

def namesOfEntries : List (String × Description) → List String
  | [] => []
  | (_, d) :: rest => names d ++ namesOfEntries rest
end

mutual
/-- No pattern in the description binds a name twice; two patterns in it may bind the same name. -/
def Clean : Description → Prop
  | plain _ => True
  | test _ => True
  | pattern p => p.names.Nodup
  | mapping entries => CleanEntries entries

def CleanEntries : List (String × Description) → Prop
  | [] => True
  | (_, d) :: rest => Clean d ∧ CleanEntries rest
end

mutual
/-- **Compiling a description checks its names.** -/
theorem compile_verdict : (d : Description) → d.Clean → Verdict d.names (Pattern.Binds d.names) d.compile
  | plain v, _ => .ok ⟨Pattern.names_ofValue v, .nil⟩
  | test _, _ => .ok ⟨rfl, .nil⟩
  | pattern _, h => .ok ⟨rfl, h⟩
  | mapping entries, h => by
    refine (compileEntries_verdict entries h).bind (.refl _) (fun _ hfault => by rw [compile, hfault])
      fun subs hok hsubs => ?_
    rw [compile, hok, names, ← hsubs]
    exact Pattern.ofFields_verdict subs

/-- What the entries have in common is not noticed here, only by the check of the mapping. -/
theorem compileEntries_verdict : (entries : List (String × Description)) → CleanEntries entries →
    Verdict (namesOfEntries entries) (fun subs => Pattern.namesOfFields subs = namesOfEntries entries)
      (compileEntries entries)
  | [], _ => .ok rfl
  | (key, d) :: rest, h => by
    refine (compile_verdict d h.1).bind (List.sublist_append_left _ _) (fun _ hfault => by rw [compileEntries, hfault])
      fun p hp hbinds => ?_
    refine (compileEntries_verdict rest h.2).bind (List.sublist_append_right _ _)
      (fun _ hfault => by rw [compileEntries, hp, hfault]) fun subs hsubs hnames => ?_
    rw [compileEntries, hp, hsubs]
    refine .ok ?_
    rw [Pattern.namesOfFields, namesOfEntries, hbinds.1, hnames]
end

/-- A capture of a description checks its name with those in the description. -/
theorem extract_verdict (name : String) (d : Description) (h : d.Clean) :
    Verdict (name :: d.names) (Pattern.Binds (name :: d.names)) (d.extract name) := by
  rw [extract]
  cases hnull : d.isNull with
  | true =>
    have hnames : d.names = [] := by
      cases d with
      | plain v => rfl
      | _ => cases hnull
    rw [hnames, if_pos rfl]
    exact Pattern.named_verdict name (.test (Test.ofBool fun _ => true))
  | false =>
    rw [if_neg Bool.false_ne_true]
    refine (compile_verdict d h).bind (List.sublist_cons_self _ _) (fun _ hfault => by rw [hfault])
      fun p hp hbinds => ?_
    rw [hp, ← hbinds.1]
    exact Pattern.named_verdict name p

end Description

namespace Sketch

/-- What a sketch is built to: a description with its names. -/
def Yields (names : List String) (d : Description) : Prop := d.names = names ∧ d.Clean

/-- A pattern that was checked can be a part of a description. -/
theorem yields_pattern {names names' : List String} {p : Pattern} (h : p.Binds names) (hnames : names = names') :
    Yields names' (.pattern p) := by
  obtain ⟨rfl, hnodup⟩ := h
  exact ⟨hnames, hnodup⟩

mutual
/-- **Building the parts of a sketch checks the names in each of them.** -/
theorem build_verdict : (s : Sketch) → Verdict s.names (Yields s.names) s.build
  | plain _ => .ok ⟨rfl, trivial⟩
  | test _ => .ok ⟨rfl, trivial⟩
  | ready _ accepted => .ok ⟨rfl, accepted.nodup⟩
  | mapping entries => by
    refine (buildEntries_verdict entries).bind (.refl _) (fun _ hfault => by rw [build, hfault])
      fun ds hds hyields => ?_
    rw [build, hds]
    exact .ok hyields
  | compiled inner => by
    refine (build_verdict inner).bind (.refl _) (fun _ hfault => by rw [build, hfault]) fun d hd hyields => ?_
    obtain ⟨hnames, hclean⟩ := hyields
    refine (d.compile_verdict hclean).bind (hnames ▸ .refl _) (fun _ hfault => by simp only [build, hd, hfault])
      fun p hp hbinds => ?_
    simp only [build, hd, hp]
    exact .ok (yields_pattern hbinds hnames)
  | capture name inner => by
    refine (build_verdict inner).bind (List.sublist_cons_self _ _) (fun _ hfault => by rw [build, hfault])
      fun d hd hyields => ?_
    obtain ⟨hnames, hclean⟩ := hyields
    refine (d.extract_verdict name hclean).bind (hnames ▸ .refl _) (fun _ hfault => by simp only [build, hd, hfault])
      fun p hp hbinds => ?_
    simp only [build, hd, hp]
    exact .ok (yields_pattern hbinds (congrArg (name :: ·) hnames))

theorem buildEntries_verdict : (entries : List (String × Sketch)) → Verdict (namesOfEntries entries)
    (fun ds => Description.namesOfEntries ds = namesOfEntries entries ∧ Description.CleanEntries ds)
    (buildEntries entries)
  | [] => .ok ⟨rfl, trivial⟩
  | (key, s) :: rest => by
    refine (build_verdict s).bind (List.sublist_append_left _ _) (fun _ hfault => by rw [buildEntries, hfault])
      fun d hd hyields => ?_
    refine (buildEntries_verdict rest).bind (List.sublist_append_right _ _)
      (fun _ hfault => by rw [buildEntries, hd, hfault]) fun ds hds hrest => ?_
    rw [buildEntries, hd, hds]
    refine .ok ⟨?_, hyields.2, hrest.2⟩
    rw [Description.namesOfEntries, namesOfEntries, hyields.1, hrest.1]
end

/-- Both stages together. -/
theorem compile_verdict (s : Sketch) : Verdict s.names (Pattern.Binds s.names) s.compile := by
  refine (build_verdict s).bind (.refl _) (fun _ hfault => by rw [compile, hfault]) fun d hd hyields => ?_
  rw [compile, hd, ← hyields.1]
  exact d.compile_verdict hyields.2

/-- **A description binds each name once.** A sketch compiles exactly if its names are distinct, and the pattern then
binds them in the order in which they are declared. Otherwise it is refused, and the name in the message occurs at
least twice among them. -/
theorem compile_checks_names (s : Sketch) :
    ((∃ p, s.compile = .ok p) ↔ s.names.Nodup) ∧ (∀ p, s.compile = .ok p → p.names = s.names) ∧
      ∀ fault, s.compile = .error fault → ∃ name, fault = .duplicateCapture name ∧
        fault.message? = some s!"Duplicate capture name '{name}' in pattern." ∧ 2 ≤ s.names.count name := by
  rcases compile_verdict s with ⟨p, hp, hnames, hnodup⟩ | ⟨name, hfault, hcount⟩
  · rw [hp]
    refine ⟨⟨fun _ => hnodup, fun _ => ⟨p, rfl⟩⟩, fun q hq => ?_, nofun⟩
    rw [← Except.ok.inj hq, hnames]
  · rw [hfault]
    refine ⟨⟨nofun, fun hnodup => ?_⟩, nofun, fun fault h => ⟨name, (Except.error.inj h).symm, ?_, hcount⟩⟩
    · have hle := List.nodup_iff_count_le_one.mp hnodup name
      omega
    · rw [← Except.error.inj h]
      rfl

/-- Two captures in different entries, around tests and a ready pattern. -/
def sampleApart : Sketch :=
  mapping [("type", plain (.text "x")), ("id", capture "id" (plain .null)),
    ("init", compiled (mapping [("callee", test (Test.ofBool fun _ => true)),
      ("value", capture "source" (ready (.literal (.text "m")) (.literal _)))]))]

/-- A name that is repeated in two entries, and further on one that is repeated inside a capture. The capture is built
first, so its name is reported. -/
def sampleClash : Sketch :=
  mapping [("left", mapping [("a", capture "x" (plain .null)), ("b", capture "x" (plain .null))]),
    ("right", capture "y" (mapping [("c", capture "y" (plain .null))]))]

theorem compile_checks_names_samples :
    (∃ p, sampleApart.compile = .ok p ∧ p.names = ["id", "source"]) ∧ sampleClash.names = ["x", "x", "y", "y"] ∧
      sampleClash.compile = .error (.duplicateCapture "y") ∧ ¬sampleClash.names.Nodup ∧
      2 ≤ sampleClash.names.count "y" := by
  have hapart : ∃ p, sampleApart.compile = .ok p := (compile_checks_names sampleApart).1.mpr (by decide)
  have hclash : sampleClash.compile = .error (.duplicateCapture "y") := rfl
  obtain ⟨name, hname, _, hcount⟩ := (compile_checks_names sampleClash).2.2 _ hclash
  obtain rfl := Fault.duplicateCapture.inj hname
  obtain ⟨p, hp⟩ := hapart
  exact ⟨⟨p, hp, (compile_checks_names sampleApart).2.1 p hp⟩, rfl, hclash, by decide, hcount⟩

end Sketch
end EsmLift
