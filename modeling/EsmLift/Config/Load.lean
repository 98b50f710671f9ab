import EsmLift.Config.Settings
import EsmLift.Toml.Value

/-!
# `Config.Load` — settings from the nearest project file

The project file is looked for in a directory and then in the directories around it; the first one found counts,
even if it says nothing about the settings, is no valid document or cannot be read. Explicit values win over those in
the file. How a document is decoded and how a field is checked is given.

## Contents

* `Path`, `Path.resolve`, `Path.upward`;
* `Finding`, `FileSystem`, `nearest?`: what there is to find, and the nearest project file;
* `sectionOf`, `settingsNear`: the section of the tool in the nearest project file;
* `load`: the settings of a run.
-/

namespace EsmLift

/-- The names on the way from the top of the file system to a file or directory. -/
abbrev Path := List String

namespace Path

/-- Follows a relative path: `.` and empty names stay, `..` goes one directory up. -/
def resolve (base : Path) (names : List String) : Path :=
  names.foldl (fun path name =>
    if name == "" || name == "." then path
    else if name == ".." then path.dropLast
    else path ++ [name]) base

/-- The names in a path written with slashes. -/
def names (s : String) : List String :=
  (s.toList.splitOnP (· == '/')).map String.ofList

/-- A path whose names are listed from the last one on, and all paths above it. -/
def upwardFrom : List String → List Path
  | [] => [[]]
  | name :: rest => (name :: rest).reverse :: upwardFrom rest

/-- A path and all paths above it, nearest first. -/
def upward (path : Path) : List Path := upwardFrom path.reverse

end Path

/-- What is found at a path where there may be a file. -/
inductive Finding where
  /-- A regular file; there is no content if it cannot be read. -/
  | file (content : Option ByteArray)
  /-- It cannot be found out whether there is a file. -/
  | unknown

/-- What is found at each path; nothing if there is no regular file, for instance a directory. -/
abbrev FileSystem := Path → Option Finding

namespace Config

/-- The name of the project file. -/
def fileName : String := "pyproject.toml"

/-- The table of the project file that holds sections of tools. -/
def toolTable : String := "tool"

/-- The section of the settings. -/
def sectionName : String := "cjs_switcheroo"

/-- What is found in place of the project file in a directory. -/
def fileIn (files : FileSystem) (directory : Path) : Option Finding := files (directory ++ [fileName])

/-- The nearest directory in which something is found, and what that is. -/
def nearest? (files : FileSystem) (start : Path) : Option (Path × Finding) :=
  (Path.upward start).findSome? fun directory => (fileIn files directory).map fun finding => (directory, finding)

/-- The section of the settings in a document. -/
def sectionOf (document : Toml.Table) : Except Fault Toml.Value :=
  match document.lookup toolTable with
  | none => .ok (.table [])
  | some (.table tools) => .ok ((tools.lookup sectionName).getD (.table []))
  | some _ => .error .notObject

/-- How a file is decoded. -/
abbrev Decoder := ByteArray → Except Toml.Refusal Toml.Table

/-- The section of the settings in what was found; none if that cannot be read or is no document. -/
def sectionIn (decode : Decoder) : Finding → Except Fault (Option Toml.Value)
  | .unknown => .error .unknownEntry
  | .file none => .ok none
  | .file (some bytes) =>
    match decode bytes with
    | .error .notUtf8 => .error .notUtf8
    | .error .malformed => .ok none
    | .error (.tooManyDigits count) => .error (.tooManyDigits count)
    | .ok document => (sectionOf document).map some

/-- The section of the settings near a directory, and the directory where it was found. A file that cannot be read or
is no document counts as an empty section found nowhere. -/
def settingsNear (decode : Decoder) (files : FileSystem) (start : Path) :
    Except Fault (Toml.Value × Option Path) :=
  match nearest? files start with
  | none => .ok (.table [], none)
  | some (directory, finding) =>
    match sectionIn decode finding with
    | .error fault => .error fault
    | .ok none => .ok (.table [], none)
    | .ok (some settings) => .ok (settings, some directory)

/-- An explicit value for a setting; null stands for none. -/
def override (overrides : Fields) (name : String) : Option Shape :=
  match overrides.lookup name with
  | some .null => none
  | some v => some v.shape
  | none => none

/-- The settings near a directory, with explicit values. -/
def load (checks : Checks) (decode : Decoder) (files : FileSystem) (start : Path) (overrides : Fields) :
    Except Fault Config :=
  match settingsNear decode files start with
  | .error fault => .error fault
  | .ok (.table settings, _) =>
    ofLookup checks fun name => (override overrides name).or ((settings.lookup name).map Toml.Value.shape)
  | .ok _ => .error .notObject

end Config
end EsmLift
