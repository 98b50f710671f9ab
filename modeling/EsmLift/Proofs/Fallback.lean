import EsmLift.Proofs.Nearest
import EsmLift.Toml.Document
import EsmLift.Validation.Standard

/-!
# `Proofs.Fallback` — which project files fall back to the defaults

A project file that is no document should count as one that says nothing, and a document should give settings, or a list
of what is wrong with them. That is so for most files and not for all of them. A file either has entries for the settings
or it stops the run (`entries_or_stops`). The first kind does no harm. The second is bytes that are no text, a number that
is too long to be read, and a document where something else stands in the place of a table: then no explicit value helps,
and the fault is not one of validation.

## Contents

* `Toml.Justified`, `Toml.justified_parse`: what a text is refused for;
* `Config.IsDocument`, `Config.Settled`, `Config.Harmless`: what a project file should do at worst;
* `Config.Stops`, `Config.entries_or_stops`: the files that do worse;
* `Config.load_stops`, `Config.load_entries`, `Config.stops_of_load`: what either kind leads to;
* `Config.load_harmless_iff`, `Config.load_not_harmless`.
-/

namespace EsmLift

/-! ## What a text is refused for -/

namespace Toml

/-- What is refused in a text: something that is malformed, or a number that has more digits than are read. -/
def Refusal.OfText : Refusal → Prop
  | .notUtf8 => False
  | .malformed => True
  | .tooManyDigits count => digitLimit < count

/-- Whatever is refused is refused as in a text. -/
def Justified {α : Type} (r : Except Refusal α) : Prop := ∀ refusal, r = .error refusal → refusal.OfText

namespace Justified

variable {α β : Type} {r : Except Refusal α}

theorem ok (a : α) : Justified (.ok a) := nofun

theorem malformed : Justified (.error .malformed : Except Refusal α) := by
  intro refusal h
  cases h
  trivial

theorem error {refusal : Refusal} (h : Justified r) (heq : r = .error refusal) :
    Justified (.error refusal : Except Refusal β) := by
  intro other hother
  cases hother
  exact h refusal heq

theorem map (h : Justified r) (f : α → β) : Justified (r.map f) := by
  cases r with
  | ok a => exact ok _
  | error refusal => exact h.error rfl

theorem demand (o : Option α) : Justified (demand o) := by
  cases o with
  | none => exact malformed
  | some a => exact ok a

end Justified

theorem justified_wholeNumber (negative : Bool) (ds : List Char) : Justified (wholeNumber negative ds) := by
  unfold wholeNumber
  split
  · rename_i hlimit
    intro refusal hrefusal
    cases hrefusal
    exact hlimit
  · exact .ok _

theorem justified_readDecimal {cs rest : List Char} {r : Except Refusal Value} (h : readDecimal cs = some (r, rest)) :
    Justified r := by
  unfold readDecimal at h
  split at h
  split at h
  · cases h
  · split at h
    split at h
    split at h
    · cases h
      exact justified_wholeNumber _ _
    · cases h
      exact .ok _

theorem justified_readNumber (cs : List Char) : Justified (readNumber cs) := by
  unfold readNumber
  dsimp only
  split
  · exact .ok _
  · split
    · exact .ok _
    · rename_i hdecimal
      exact (justified_readDecimal hdecimal).error rfl
    · exact .demand _

/-- The readers of values, each with less fuel than the one that calls it. -/
theorem justified_readValue (fuel : Nat) : (∀ cs, Justified (readValue fuel cs)) ∧ (∀ cs, Justified (readArray fuel cs)) ∧
    ∀ t flags cs, Justified (readInline fuel t flags cs) := by
  induction fuel with
  | zero => exact ⟨fun _ => .malformed, fun _ => .malformed, fun _ _ _ => .malformed⟩
  | succ fuel ih =>
    obtain ⟨hvalue, harray, hinline⟩ := ih
    refine ⟨fun cs => ?_, fun cs => ?_, fun t flags cs => ?_⟩
    · unfold readValue
      split
      · exact (Justified.demand _).map _
      · exact (Justified.demand _).map _
      · exact .ok _
      · exact .ok _
      · exact (harray _).map _
      · split
        · exact .ok _
        · exact (hinline _ _ _).map _
      · split
        · exact .ok _
        · exact .malformed
        · exact justified_readNumber _
    · unfold readArray
      split
      · exact .malformed
      · exact .ok _
      · split
        · rename_i hread
          exact (hvalue _).error hread
        · split
          · exact .ok _
          · exact (harray _).map _
          · exact .malformed
    · unfold readInline
      split
      · split
        · rename_i hread
          exact (hvalue _).error hread
        · dsimp only
          split
          · exact .malformed
          · split
            · exact .malformed
            · split
              · exact .ok _
              · exact hinline _ _ _
              · exact .malformed
      · exact .malformed

theorem justified_readEntry (s : State) (cs : List Char) : Justified (readEntry s cs) := by
  unfold readEntry
  split
  · split
    · exact (Justified.demand _).map _
    · rename_i hread
      exact ((justified_readValue _).1 _).error hread
  · exact .malformed

theorem justified_readStatement (s : State) (cs : List Char) : Justified (readStatement s cs) := by
  unfold readStatement
  split
  · exact .demand _
  · exact .ok _
  · exact justified_readEntry s _

theorem justified_readDocument (fuel : Nat) (s : State) (cs : List Char) : Justified (readDocument fuel s cs) := by
  induction fuel generalizing s cs with
  | zero => exact .malformed
  | succ fuel ih =>
    unfold readDocument
    split
    · exact .ok _
    · exact ih _ _
    · split
      · rename_i hread
        exact (justified_readStatement _ _).error hread
      · split
        · exact .ok _
        · exact ih _ _
        · exact .malformed

/-- **A text is refused because it is malformed, or because a number in it has too many digits.** -/
theorem justified_parse (s : String) : Justified (parse s) := justified_readDocument _ _ _

theorem Value.table_or_not (w : Value) : (∃ entries, w = .table entries) ∨ ∀ entries, w ≠ .table entries := by
  cases w with
  | table entries => exact .inl ⟨entries, rfl⟩
  | _ => exact .inr nofun

end Toml

namespace Config

/-! ## Outcomes -/

/-- The bytes are a text, and the text is a document. -/
def IsDocument (bytes : ByteArray) : Prop :=
  ∃ text document, String.fromUTF8? bytes = some text ∧ Toml.parse text = .ok document

theorem isDocument_iff_decode {bytes : ByteArray} : IsDocument bytes ↔ ∃ document, Toml.decode bytes = .ok document := by
  unfold IsDocument Toml.decode
  cases String.fromUTF8? bytes <;> simp

theorem isDocument_iff {bytes : ByteArray} : (Toml.decode bytes).toBool = true ↔ IsDocument bytes := by
  rw [isDocument_iff_decode]
  cases Toml.decode bytes <;> simp [Except.toBool]

instance (bytes : ByteArray) : Decidable (IsDocument bytes) := decidable_of_iff _ isDocument_iff

/-- There are settings, or issues with them. -/
def Settled (outcome : Except Fault Config) : Prop :=
  (∃ config, outcome = .ok config) ∨ ∃ issues, outcome = .error (.invalid issues)

/-- The worst that a project file should do: if it is no document, the settings are the defaults, and if it is one, there
are settings, or issues with them. -/
structure Harmless (bytes : ByteArray) (outcome : Except Fault Config) : Prop where
  fallback : ¬IsDocument bytes → outcome = .ok default
  document : IsDocument bytes → Settled outcome

variable {checks : Checks} {files : FileSystem} {start directory : Path} {bytes : ByteArray} {fault : Fault}
  {outcome : Except Fault Config}

theorem Harmless.settled (h : Harmless bytes outcome) : Settled outcome := by
  by_cases hdocument : IsDocument bytes
  · exact h.document hdocument
  · exact .inl ⟨default, h.fallback hdocument⟩

/-- No other faults are left. -/
theorem Settled.invalid (h : Settled (.error fault)) : ∃ issues, fault = .invalid issues := by
  rcases h with ⟨config, hok⟩ | ⟨issues, hinvalid⟩
  · cases hok
  · exact ⟨issues, Except.error.inj hinvalid⟩

/-! ## Files that stop the run -/

/-- A file that stops the run, with the fault that it leads to. -/
inductive Stops (bytes : ByteArray) : Fault → Prop where
  | noText (htext : String.fromUTF8? bytes = none) : Stops bytes .notUtf8
  | longNumber {text : String} {count : Nat} (htext : String.fromUTF8? bytes = some text)
      (hparse : Toml.parse text = .error (.tooManyDigits count)) : Stops bytes (.tooManyDigits count)
  | tools {text : String} {document : Toml.Table} {w : Toml.Value} (htext : String.fromUTF8? bytes = some text)
      (hparse : Toml.parse text = .ok document) (htools : document.lookup "tool" = some w)
      (hw : ∀ entries, w ≠ .table entries) : Stops bytes .notObject
  | settings {text : String} {document tools : Toml.Table} {w : Toml.Value} (htext : String.fromUTF8? bytes = some text)
      (hparse : Toml.parse text = .ok document) (htools : document.lookup "tool" = some (.table tools))
      (hsection : tools.lookup "cjs_switcheroo" = some w) (hw : ∀ entries, w ≠ .table entries) : Stops bytes .notObject

theorem Stops.ne_invalid (h : Stops bytes fault) (issues : List Issue) : fault ≠ .invalid issues := by
  cases h <;> exact nofun

/-- A number stops the run only by its length. -/
theorem Stops.digitLimit_lt {count : Nat} (h : Stops bytes (.tooManyDigits count)) : digitLimit < count := by
  cases h with
  | longNumber _ hparse => exact Toml.justified_parse _ _ hparse

/-- **A file has entries for the settings, or it stops the run.** -/
theorem entries_or_stops (bytes : ByteArray) :
    (∃ settings, Entries Toml.decode (.file (some bytes)) settings) ∨ ∃ fault, Stops bytes fault := by
  -- in the order in which a file is read: bytes, text, document, tools, section
  cases htext : String.fromUTF8? bytes with
  | none => exact .inr ⟨_, .noText htext⟩
  | some text =>
    have hdecode : Toml.decode bytes = Toml.parse text := by rw [Toml.decode, htext]
    cases hparse : Toml.parse text with
    | error refusal =>
      cases refusal with
      | notUtf8 => exact (Toml.justified_parse text _ hparse).elim
      | malformed => exact .inl ⟨_, .malformed (hdecode.trans hparse)⟩
      | tooManyDigits count => exact .inr ⟨_, .longNumber htext hparse⟩
    | ok document =>
      cases htools : document.lookup "tool" with
      | none => exact .inl ⟨_, .noTools (hdecode.trans hparse) htools⟩
      | some w =>
        rcases w.table_or_not with ⟨tools, rfl⟩ | hw
        · cases hsection : tools.lookup "cjs_switcheroo" with
          | none => exact .inl ⟨_, .noSection (hdecode.trans hparse) htools hsection⟩
          | some w =>
            rcases w.table_or_not with ⟨settings, rfl⟩ | hw
            · exact .inl ⟨_, .found (hdecode.trans hparse) htools hsection⟩
            · exact .inr ⟨_, .settings htext hparse htools hsection hw⟩
        · exact .inr ⟨_, .tools htext hparse htools hw⟩

/-- A section that is no table stops the run. -/
theorem load_of_sectionIn_ok {w : Toml.Value} (h : IsNearest files start directory (.file (some bytes)))
    (hsection : sectionIn Toml.decode (.file (some bytes)) = .ok (some w)) (hw : ∀ entries, w ≠ .table entries)
    (overrides : Fields) : load checks Toml.decode files start overrides = .error .notObject := by
  have hnear : settingsNear Toml.decode files start = .ok (w, some directory) := by
    unfold settingsNear
    rw [nearest?_eq_some_iff.mpr h]
    dsimp only
    rw [hsection]
  unfold load
  rw [hnear]
  cases w with
  | table entries => exact absurd rfl (hw entries)
  | _ => rfl

/-- **A file that stops the run does so with its own fault**, whatever is given explicitly. -/
theorem load_stops (h : IsNearest files start directory (.file (some bytes))) (hstops : Stops bytes fault)
    (overrides : Fields) : load checks Toml.decode files start overrides = .error fault := by
  cases hstops with
  | noText htext =>
    refine load_of_sectionIn_error h ?_ overrides
    simp [sectionIn, Toml.decode, htext]
  | longNumber htext hparse =>
    refine load_of_sectionIn_error h ?_ overrides
    simp [sectionIn, Toml.decode, htext, hparse]
  | @tools text document w htext hparse htools hw =>
    have hsection : sectionOf document = .error .notObject := by
      unfold sectionOf toolTable
      rw [htools]
      cases w with
      | table entries => exact absurd rfl (hw entries)
      | _ => rfl
    refine load_of_sectionIn_error h ?_ overrides
    simp [sectionIn, Toml.decode, htext, hparse, hsection, Except.map]
  | @settings text document tools w htext hparse htools hlookup hw =>
    have hsection : sectionOf document = .ok w := by
      unfold sectionOf toolTable sectionName
      rw [htools]
      dsimp only
      rw [hlookup]
      rfl
    refine load_of_sectionIn_ok h ?_ hw overrides
    simp [sectionIn, Toml.decode, htext, hparse, hsection, Except.map]

/-! ## Files with entries -/

/-- **A file with entries gives settings, or issues with them.** -/
theorem load_entries {settings : Toml.Table} (h : IsNearest files start directory (.file (some bytes)))
    (hentries : Entries Toml.decode (.file (some bytes)) settings) (overrides : Fields) :
    Settled (load checks Toml.decode files start overrides) := by
  rw [load_eq (.found h hentries)]
  unfold ofLookup Validation.Checked.lift
  split
  · exact .inl ⟨_, rfl⟩
  · exact .inr ⟨_, rfl⟩

/-- Of the files with entries, those that are no documents say nothing. -/
theorem Entries.eq_nil {settings : Toml.Table} (h : Entries Toml.decode (.file (some bytes)) settings)
    (hnot : ¬IsDocument bytes) : settings = [] := by
  cases h with
  | malformed _ => rfl
  | noTools hdecode _ => exact absurd (isDocument_iff_decode.mpr ⟨_, hdecode⟩) hnot
  | noSection hdecode _ _ => exact absurd (isDocument_iff_decode.mpr ⟨_, hdecode⟩) hnot
  | found hdecode _ _ => exact absurd (isDocument_iff_decode.mpr ⟨_, hdecode⟩) hnot

theorem harmless_of_entries {settings : Toml.Table} (h : IsNearest files start directory (.file (some bytes)))
    (hentries : Entries Toml.decode (.file (some bytes)) settings) :
    Harmless bytes (load checks Toml.decode files start []) := by
  refine ⟨fun hnot => ?_, fun _ => load_entries h hentries []⟩
  rw [load_eq (.found h hentries), hentries.eq_nil hnot]
  rfl

/-- **No other files stop the run.** -/
theorem stops_of_load (h : IsNearest files start directory (.file (some bytes))) {overrides : Fields}
    (hload : load checks Toml.decode files start overrides = .error fault) (hnot : ∀ issues, fault ≠ .invalid issues) :
    Stops bytes fault := by
  rcases entries_or_stops bytes with ⟨settings, hentries⟩ | ⟨other, hstops⟩
  · have hsettled : Settled (load checks Toml.decode files start overrides) := load_entries h hentries overrides
    rw [hload] at hsettled
    obtain ⟨issues, hinvalid⟩ := hsettled.invalid
    exact absurd hinvalid (hnot issues)
  · have hsame : load checks Toml.decode files start overrides = _ := load_stops h hstops overrides
    rw [hload] at hsame
    rw [Except.error.inj hsame]
    exact hstops

/-- **A project file does no harm exactly if it does not stop the run.** The nearest project file falls back to the
defaults, or gives settings or issues, unless it is one of those that stop the run, and those do so whatever is given
explicitly. No other faults than theirs and those of validation can arise, and a number stops the run only if it has
more digits than are read. -/
theorem load_harmless_iff (h : IsNearest files start directory (.file (some bytes))) :
    (Harmless bytes (load checks Toml.decode files start []) ↔ ∀ fault, ¬Stops bytes fault) ∧
    (∀ overrides fault, Stops bytes fault ↔
      load checks Toml.decode files start overrides = .error fault ∧ ∀ issues, fault ≠ .invalid issues) ∧
    ∀ count, Stops bytes (.tooManyDigits count) → digitLimit < count := by
  refine ⟨?_, ?_, fun count => Stops.digitLimit_lt⟩
  · constructor
    · intro hharmless fault hstops
      have hsettled := hharmless.settled
      rw [load_stops h hstops] at hsettled
      obtain ⟨issues, hinvalid⟩ := hsettled.invalid
      exact hstops.ne_invalid issues hinvalid
    · intro hnone
      rcases entries_or_stops bytes with ⟨settings, hentries⟩ | ⟨fault, hstops⟩
      · exact harmless_of_entries h hentries
      · exact absurd hstops (hnone fault)
  · intro overrides fault
    constructor
    · intro hstops
      exact ⟨load_stops h hstops overrides, hstops.ne_invalid⟩
    · rintro ⟨hload, hnot⟩
      exact stops_of_load h hload hnot

/-- A project file in a directory, and another one above it. -/
def Sample.tree (bytes : ByteArray) : FileSystem
  | ["pyproject.toml"] => some (.file (some ByteArray.empty))
  | ["a", "pyproject.toml"] => some (.file (some bytes))
  | _ => none

theorem Sample.tree_nearest (bytes : ByteArray) :
    IsNearest (Sample.tree bytes) ["a", "b"] ["a"] (.file (some bytes)) :=
  nearest?_eq_some_iff.mp rfl

/-- A document with a number for the section. -/
def Sample.flat : ByteArray := "[tool]\ncjs_switcheroo = 1".toUTF8

theorem Sample.load_flat : load .standard Toml.decode (Sample.tree Sample.flat) ["a", "b"] [] = .error .notObject := by
  decide +kernel

theorem load_harmless_iff_flat :
    IsNearest (Sample.tree Sample.flat) ["a", "b"] ["a"] (.file (some Sample.flat)) ∧ Stops Sample.flat .notObject ∧
    (Harmless Sample.flat (load .standard Toml.decode (Sample.tree Sample.flat) ["a", "b"] []) ↔
      ∀ fault, ¬Stops Sample.flat fault) ∧
    (∀ overrides fault, Stops Sample.flat fault ↔
      load .standard Toml.decode (Sample.tree Sample.flat) ["a", "b"] overrides = .error fault ∧
        ∀ issues, fault ≠ .invalid issues) ∧
    ∀ count, Stops Sample.flat (.tooManyDigits count) → digitLimit < count :=
  ⟨Sample.tree_nearest _, stops_of_load (Sample.tree_nearest _) Sample.load_flat nofun,
    load_harmless_iff (Sample.tree_nearest _)⟩

/-- A byte that is in no text. -/
def Sample.noText : ByteArray := ⟨#[0xff]⟩

/-- **Not every project file is harmless**: one that is no text does not fall back to the defaults, and a document with a
number for the section gives neither settings nor issues. -/
theorem load_not_harmless :
    (¬∀ checks files start directory bytes, IsNearest files start directory (.file (some bytes)) → ¬IsDocument bytes →
      load checks Toml.decode files start [] = .ok default) ∧
    ¬∀ checks files start directory bytes, IsNearest files start directory (.file (some bytes)) → IsDocument bytes →
      Settled (load checks Toml.decode files start []) := by
  constructor
  · intro hall
    have hload := hall .standard _ _ _ _ (Sample.tree_nearest Sample.noText) (by decide +kernel)
    rw [load_stops (Sample.tree_nearest _) (.noText (by decide +kernel))] at hload
    cases hload
  · intro hall
    have hsettled := hall .standard _ _ _ _ (Sample.tree_nearest Sample.flat) (by decide +kernel)
    rw [Sample.load_flat] at hsettled
    obtain ⟨issues, hinvalid⟩ := hsettled.invalid
    cases hinvalid

end Config
end EsmLift
