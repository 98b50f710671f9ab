import EsmLift.Console.Mistake
import EsmLift.Validation.Issue

/-!
# `Fault` — why an operation failed

One type of causes for the whole library. `Fault.message?` is the text of those causes that carry one.
-/

namespace EsmLift

/-- The cause of a failed operation. -/
inductive Fault where
  /-- A field was looked up in a value that is not an object. -/
  | notObject
  /-- A value that has no items was iterated over. -/
  | notIterable
  /-- A part was taken of a value that has no such parts. -/
  | notIndexable
  /-- A required field is absent. -/
  | missingField (key : String)
  /-- A statement of the given type is not an element of the list it should be replaced in. -/
  | notInBody (type : String)
  /-- The root of a tree was to be replaced by a list of statements. -/
  | rootSplice
  /-- The node in a field that holds one node was to be replaced by a list of statements. -/
  | fieldSplice (key : String)
  /-- A tree whose root is not a program; `found` describes the root. -/
  | notProgram (found : String)
  /-- A pattern binds a capture name twice. -/
  | duplicateCapture (name : String)
  /-- A message that the console cannot show. -/
  | unshown (mistake : Mistake)
  /-- Fields that do not pass validation. -/
  | invalid (issues : List Issue)
  /-- Bytes that are not UTF-8. -/
  | notUtf8
  /-- It cannot be found out whether there is a file. -/
  | unknownEntry
  /-- A whole number with more digits than are read. -/
  | tooManyDigits (count : Nat)
  /-- A whole number with more digits than are written. -/
  | tooLong
  /-- The bound on the number of steps was too small. -/
  | exhausted
  deriving DecidableEq, Repr

namespace Fault

/-- The text of a fault, for those that have one. -/
def message? : Fault → Option String
  | missingField key => some (Text.quoted key)
  | notInBody type => some s!"Statement of type '{type}' is not in the target body."
  | rootSplice => some "The root node cannot be replaced by a statement list."
  | fieldSplice key => some s!"Cannot splice statements into single-node field '{key}'."
  | notProgram found => some s!"Expected a Program node, got '{found}'."
  | duplicateCapture name => some s!"Duplicate capture name '{name}' in pattern."
  | unshown mistake => some mistake.text
  | tooManyDigits count => some (tooManyDigitsText count)
  | tooLong =>
    some (s!"Exceeds the limit ({digitLimit} digits) for integer string conversion; " ++
      "use sys.set_int_max_str_digits() to increase the limit")
  | notObject | notIterable | notIndexable | invalid _ | notUtf8 | unknownEntry | exhausted => none

end Fault
end EsmLift
