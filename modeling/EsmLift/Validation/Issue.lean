/-!
# `Validation.Issue` — what is wrong with a field

An `Issue` names the place of a faulty field and the problem with it. Every problem has a short tag and a text.
-/

namespace EsmLift

/-- A step from a record to a part of it. -/
inductive Step where
  | field (name : String)
  | index (position : Nat)
  deriving DecidableEq, Repr

/-- What can be wrong with a field. -/
inductive Problem where
  /-- A field without default is absent. -/
  | missing
  /-- Not a kind of value that can be read as a truth value. -/
  | boolType
  /-- Text or a whole number that denotes no truth value. -/
  | boolParsing
  | stringType
  | intType
  /-- Text that is no whole number. -/
  | intParsing
  /-- A double too large for a whole number of 64 bits, or text with too many digits. -/
  | intSize
  /-- A double with a fractional part. -/
  | intFraction
  | listType
  | objectType
  /-- An item that is no warning record. -/
  | warningType
  /-- A warning category without a visible character. -/
  | blankCategory
  deriving DecidableEq, Repr

namespace Problem

/-- The short name of a problem. -/
def tag : Problem → String
  | missing => "missing"
  | boolType => "bool_type"
  | boolParsing => "bool_parsing"
  | stringType => "string_type"
  | intType => "int_type"
  | intParsing => "int_parsing"
  | intSize => "int_parsing_size"
  | intFraction => "int_from_float"
  | listType => "list_type"
  | objectType => "dict_type"
  | warningType => "model_type"
  | blankCategory => "value_error"

/-- The sentence that explains a problem. -/
def text : Problem → String
  | missing => "Field required"
  | boolType => "Input should be a valid boolean"
  | boolParsing => "Input should be a valid boolean, unable to interpret input"
  | stringType => "Input should be a valid string"
  | intType => "Input should be a valid integer"
  | intParsing => "Input should be a valid integer, unable to parse string as an integer"
  | intSize => "Unable to parse input string as an integer, exceeded maximum size"
  | intFraction => "Input should be a valid integer, got a number with a fractional part"
  | listType => "Input should be a valid list"
  | objectType => "Input should be a valid dictionary"
  | warningType => "Input should be a valid dictionary or instance of TransformWarning"
  | blankCategory => "Value error, warning_category must not be empty."

end Problem

/-- A problem and the path to the field that has it. -/
structure Issue where
  path : List Step
  problem : Problem
  deriving DecidableEq, Repr

namespace Issue

/-- The same issue, seen from one step further out. -/
def under (step : Step) (issue : Issue) : Issue := { issue with path := step :: issue.path }

end Issue
end EsmLift
