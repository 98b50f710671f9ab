import EsmLift.Report
import EsmLift.Text.Blank
import EsmLift.Text.Lowercase

/-!
# `Config.Settings` — the settings of a run

Three settings, each with a default. A warning category is stripped and put into lower case, and must not be
blank.
-/

namespace EsmLift

/-- The settings of a run. -/
structure Config where
  /-- Whether the comments of a split statement go to the first of its pieces. -/
  preserveComments : Bool
  /-- Whether a candidate below the root makes the run fail. -/
  strictPlacement : Bool
  warningCategory : String
  deriving DecidableEq, Repr

namespace Config

/-- The names of the settings, in order. -/
def names : List String := ["preserve_comments", "strict_placement", "warning_category"]

/-- The settings unless others are chosen. -/
def default : Config := ⟨true, false, defaultCategory⟩

/-- A warning category in its normal form. -/
def readCategory (checks : Checks) (s : Shape) : Except Problem String :=
  match checks.text s with
  | .error problem => .error problem
  | .ok text =>
    let clean := Text.lowercase (Text.strip text)
    if clean == "" then .error .blankCategory else .ok clean

/-- The settings from what is given for each of them. -/
def ofShapes (checks : Checks) (preserveComments strictPlacement warningCategory : Option Shape) :
    Validation.Checked Config :=
  let preserveComments := Validation.optional "preserve_comments" default.preserveComments
    (fun s => Validation.single (checks.bool s)) preserveComments
  let strictPlacement := Validation.optional "strict_placement" default.strictPlacement
    (fun s => Validation.single (checks.bool s)) strictPlacement
  let warningCategory := Validation.optional "warning_category" default.warningCategory
    (fun s => Validation.single (readCategory checks s)) warningCategory
  match Validation.both preserveComments (Validation.both strictPlacement warningCategory) with
  | .ok (preserveComments, strictPlacement, warningCategory) =>
    .ok { preserveComments, strictPlacement, warningCategory }
  | .error issues => .error issues

/-- The settings from a source of shapes by name. -/
def ofLookup (checks : Checks) (shapeOf : String → Option Shape) : Except Fault Config :=
  (ofShapes checks (shapeOf "preserve_comments") (shapeOf "strict_placement") (shapeOf "warning_category")).lift

/-- The settings from fields; other fields than theirs are passed over. -/
def ofFields (checks : Checks) (fields : Fields) : Except Fault Config :=
  ofLookup checks fun name => (fields.lookup name).map Value.shape

end Config
end EsmLift
