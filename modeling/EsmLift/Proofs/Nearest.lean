import EsmLift.Config.Load
import EsmLift.Proofs.Refinement

/-!
# `Proofs.Nearest` — the nearest project file and nothing else

Settings come from explicit values, from one section of one file, and from defaults. Which file that is is said here
without a search: of the directories on the way from the top to the start, the longest one that holds a project
file, or where it cannot be found out whether there is one. So what the files in other directories say does not matter,
and of the file itself only three entries do. All this holds whatever the decoder of documents and the checks of fields
are.

## Contents

* `Config.IsNearest`, `Config.nearest?_eq_some_iff`: the file that counts;
* `Config.Entries`, `Config.EntriesNear`, `Config.settingsNear_iff`: its entries for the settings;
* `Config.Chosen`, `Config.Resolved`, `Config.ofLookup_ok_iff`: where each setting comes from;
* `Config.load_ok_iff`, `Config.load_nearest`.
-/

namespace EsmLift
namespace Config

/-! ## The file that counts -/

/-- `directory` is the nearest one in which something is found in place of a project file, and this is what it is. -/
structure IsNearest (files : FileSystem) (start directory : Path) (finding : Finding) : Prop where
  above : directory <+: start
  found : fileIn files directory = some finding
  nearest : ∀ other, other <+: start → directory.length < other.length → fileIn files other = none

variable {files : FileSystem} {start directory : Path} {finding : Finding}

/-- At the top there is one directory to look into. -/
theorem isNearest_nil : IsNearest files [] directory finding ↔ directory = [] ∧ fileIn files [] = some finding := by
  constructor
  · intro h
    have hdirectory : directory = [] := List.prefix_nil.mp h.above
    exact ⟨hdirectory, hdirectory ▸ h.found⟩
  · rintro ⟨rfl, hfound⟩
    refine ⟨List.prefix_refl _, hfound, fun other hother hlength => ?_⟩
    rw [List.prefix_nil.mp hother] at hlength
    exact absurd hlength (Nat.lt_irrefl _)

/-- A directory with a project file is the nearest one to itself. -/
theorem isNearest_here {here : Finding} (hfile : fileIn files start = some here) :
    IsNearest files start directory finding ↔ directory = start ∧ here = finding := by
  constructor
  · intro h
    have hdirectory : directory = start := by
      rcases Nat.lt_or_ge directory.length start.length with hlt | hge
      · have hnone := h.nearest start (List.prefix_refl _) hlt
        rw [hfile] at hnone
        cases hnone
      · exact h.above.eq_of_length_le hge
    have hfound := h.found
    rw [hdirectory, hfile] at hfound
    exact ⟨hdirectory, Option.some.inj hfound⟩
  · rintro ⟨rfl, rfl⟩
    refine ⟨List.prefix_refl _, hfile, fun other hother hlength => ?_⟩
    have hle := hother.length_le
    omega

/-- Without a project file in a directory the one around it is searched. -/
theorem isNearest_up {name : String} (hfile : fileIn files (start ++ [name]) = none) :
    IsNearest files (start ++ [name]) directory finding ↔ IsNearest files start directory finding := by
  constructor
  · intro h
    have habove : directory <+: start := by
      rcases List.prefix_concat_iff.mp h.above with rfl | habove
      · have hfound := h.found
        rw [hfile] at hfound
        cases hfound
      · exact habove
    refine ⟨habove, h.found, fun other hother hlength => ?_⟩
    exact h.nearest other (hother.trans (List.prefix_append _ _)) hlength
  · intro h
    refine ⟨h.above.trans (List.prefix_append _ _), h.found, fun other hother hlength => ?_⟩
    rcases List.prefix_concat_iff.mp hother with rfl | hother
    · exact hfile
    · exact h.nearest other hother hlength

/-- **The search finds the nearest project file.** -/
theorem nearest?_eq_some_iff : nearest? files start = some (directory, finding) ↔
    IsNearest files start directory finding := by
  -- along the names of the start from the last one on, as the search goes
  have hfrom (rev : List String) : ((Path.upwardFrom rev).findSome? fun d => (fileIn files d).map fun b => (d, b))
      = some (directory, finding) ↔ IsNearest files rev.reverse directory finding := by
    induction rev with
    | nil =>
      rw [Path.upwardFrom, List.reverse_nil, isNearest_nil]
      cases hfile : fileIn files [] with
      | none => simp [hfile]
      | some here => simp [hfile, eq_comm]
    | cons name rest ih =>
      rw [Path.upwardFrom, List.findSome?_cons]
      cases hfile : fileIn files (name :: rest).reverse with
      | none =>
        rw [List.reverse_cons] at hfile ⊢
        rw [isNearest_up hfile]
        exact ih
      | some here =>
        rw [isNearest_here hfile]
        simp [eq_comm]
  rw [nearest?, Path.upward, hfrom, List.reverse_reverse]

variable {decode : Decoder}

/-- The entries for the settings in what was found: those of their section, and none if the file cannot be read, is no
document or has no such section. -/
inductive Entries (decode : Decoder) : Finding → Toml.Table → Prop where
  | unreadable : Entries decode (.file none) []
  | malformed {bytes : ByteArray} (hdecode : decode bytes = .error .malformed) : Entries decode (.file (some bytes)) []
  | noTools {bytes : ByteArray} {document : Toml.Table} (hdecode : decode bytes = .ok document)
      (htools : document.lookup "tool" = none) : Entries decode (.file (some bytes)) []
  | noSection {bytes : ByteArray} {document tools : Toml.Table} (hdecode : decode bytes = .ok document)
      (htools : document.lookup "tool" = some (.table tools)) (hsection : tools.lookup "cjs_switcheroo" = none) :
      Entries decode (.file (some bytes)) []
  | found {bytes : ByteArray} {document tools settings : Toml.Table} (hdecode : decode bytes = .ok document)
      (htools : document.lookup "tool" = some (.table tools))
      (hsection : tools.lookup "cjs_switcheroo" = some (.table settings)) :
      Entries decode (.file (some bytes)) settings

/-- The entries that count at a directory. -/
inductive EntriesNear (decode : Decoder) (files : FileSystem) (start : Path) : Toml.Table → Prop where
  | absent (h : ∀ directory finding, ¬IsNearest files start directory finding) : EntriesNear decode files start []
  | found {directory : Path} {finding : Finding} {settings : Toml.Table}
      (h : IsNearest files start directory finding) (hentries : Entries decode finding settings) :
      EntriesNear decode files start settings

theorem sectionOf_eq_table_iff {document settings : Toml.Table} : sectionOf document = .ok (.table settings) ↔
    (document.lookup "tool" = none ∧ settings = []) ∨
    (∃ tools, document.lookup "tool" = some (.table tools) ∧
      ((tools.lookup "cjs_switcheroo" = none ∧ settings = []) ∨
        tools.lookup "cjs_switcheroo" = some (.table settings))) := by
  unfold sectionOf toolTable sectionName
  constructor
  · intro h
    split at h
    · rename_i htools
      exact .inl ⟨htools, (Toml.Value.table.inj (Except.ok.inj h)).symm⟩
    · rename_i tools htools
      refine .inr ⟨tools, htools, ?_⟩
      have hsection := Except.ok.inj h
      cases hlookup : tools.lookup "cjs_switcheroo" with
      | none =>
        rw [hlookup] at hsection
        exact .inl ⟨rfl, (Toml.Value.table.inj hsection).symm⟩
      | some w =>
        rw [hlookup] at hsection
        exact .inr (congrArg some hsection)
    · cases h
  · rintro (⟨htools, rfl⟩ | ⟨tools, htools, ⟨hnone, rfl⟩ | hsome⟩)
    · rw [htools]
    · rw [htools]
      dsimp only
      rw [hnone]
      rfl
    · rw [htools]
      dsimp only
      rw [hsome]
      rfl

/-- The entries in what was found, read. -/
theorem sectionIn_iff {settings : Toml.Table} :
    (sectionIn decode finding = .ok none ∧ settings = []) ∨ sectionIn decode finding = .ok (some (.table settings)) ↔
      Entries decode finding settings := by
  constructor
  · intro h
    unfold sectionIn at h
    rcases finding with (_ | bytes) | _
    · obtain rfl : settings = [] := by simpa using h
      exact .unreadable
    · cases hdecode : decode bytes with
      | error refusal =>
        cases refusal with
        | notUtf8 => simp [hdecode] at h
        | malformed =>
          obtain rfl : settings = [] := by simpa [hdecode] using h
          exact .malformed hdecode
        | tooManyDigits count => simp [hdecode] at h
      | ok document =>
        have hsection : sectionOf document = .ok (.table settings) := by
          cases hsection : sectionOf document with
          | error fault => simp [hdecode, hsection, Except.map] at h
          | ok w =>
            obtain rfl : w = .table settings := by simpa [hdecode, hsection, Except.map] using h
            rfl
        rcases sectionOf_eq_table_iff.mp hsection with ⟨htools, rfl⟩ | ⟨tools, htools, ⟨hnone, rfl⟩ | hsome⟩
        · exact .noTools hdecode htools
        · exact .noSection hdecode htools hnone
        · exact .found hdecode htools hsome
    · simp at h
  · intro h
    have hok {bytes : ByteArray} {document : Toml.Table} (hdecode : decode bytes = .ok document)
        (hsection : sectionOf document = .ok (.table settings)) :
        sectionIn decode (.file (some bytes)) = .ok (some (.table settings)) := by
      simp [sectionIn, hdecode, hsection, Except.map]
    cases h with
    | unreadable => exact .inl ⟨rfl, rfl⟩
    | malformed hdecode => exact .inl ⟨by simp [sectionIn, hdecode], rfl⟩
    | noTools hdecode htools =>
      exact .inr (hok hdecode (sectionOf_eq_table_iff.mpr (.inl ⟨htools, rfl⟩)))
    | noSection hdecode htools hsection =>
      exact .inr (hok hdecode (sectionOf_eq_table_iff.mpr (.inr ⟨_, htools, .inl ⟨hsection, rfl⟩⟩)))
    | found hdecode htools hsection =>
      exact .inr (hok hdecode (sectionOf_eq_table_iff.mpr (.inr ⟨_, htools, .inr hsection⟩)))

/-- **The entries that count are those of the nearest file.** -/
theorem settingsNear_iff {settings : Toml.Table} :
    (∃ place, settingsNear decode files start = .ok (.table settings, place)) ↔
      EntriesNear decode files start settings := by
  unfold settingsNear
  cases hnearest : nearest? files start with
  | none =>
    have habsent (directory : Path) (finding : Finding) : ¬IsNearest files start directory finding := by
      rw [← nearest?_eq_some_iff, hnearest]
      exact nofun
    constructor
    · rintro ⟨place, h⟩
      cases h
      exact .absent habsent
    · intro h
      cases h with
      | absent _ => exact ⟨none, rfl⟩
      | found h _ => exact absurd h (habsent _ _)
  | some pair =>
    obtain ⟨directory, finding⟩ := pair
    have hfound : IsNearest files start directory finding := nearest?_eq_some_iff.mp hnearest
    have hentries : EntriesNear decode files start settings ↔ Entries decode finding settings := by
      constructor
      · intro h
        cases h with
        | absent h => exact absurd hfound (h _ _)
        | found h hentries =>
          have hsame := nearest?_eq_some_iff.mpr h
          rw [hnearest] at hsame
          cases hsame
          exact hentries
      · exact .found hfound
    rw [hentries, ← sectionIn_iff]
    dsimp only
    cases hsection : sectionIn decode finding with
    | error fault => simp
    | ok w =>
      cases w with
      | none => simp [eq_comm]
      | some w => simp

/-! ## Where a setting comes from -/

variable {checks : Checks}

/-- The shape that is checked for a setting. -/
def shapeFor (overrides : Fields) (settings : Toml.Table) (name : String) : Option Shape :=
  (override overrides name).or ((settings.lookup name).map Toml.Value.shape)

/-- The settings at a directory are those of the entries that count there. -/
theorem load_eq {settings : Toml.Table} (h : EntriesNear decode files start settings) (overrides : Fields) :
    load checks decode files start overrides = ofLookup checks (shapeFor overrides settings) := by
  obtain ⟨place, hnear⟩ := settingsNear_iff.mpr h
  unfold load
  rw [hnear]
  rfl

/-- What stops the reading of the nearest file stops the run. -/
theorem load_of_sectionIn_error {fault : Fault} (h : IsNearest files start directory finding)
    (hsection : sectionIn decode finding = .error fault) (overrides : Fields) :
    load checks decode files start overrides = .error fault := by
  have hnear : settingsNear decode files start = .error fault := by
    unfold settingsNear
    rw [nearest?_eq_some_iff.mpr h]
    dsimp only
    rw [hsection]
  unfold load
  rw [hnear]

end Config
end EsmLift
