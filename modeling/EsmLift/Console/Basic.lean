import EsmLift.Console.Mistake

/-!
# `Console.Basic` — where messages are shown

A console shows marked-up text. How it does that is its own business: the library is given a console, and relies on
two things only. A message without an opening bracket has no tags, so there is nothing in it that could be wrong; and
what stands in front of the first bracket or backslash has no influence on whether a message can be shown.

## Contents

* `Console.Level` with its number, name and sign;
* `Console`: what a console does, and what is relied on;
* `Console.log`: a log message, with the sign of its level in front.
-/

namespace EsmLift
namespace Console

/-- The weight of a log message. -/
inductive Level where
  | info
  | success
  | warning
  | error
  deriving DecidableEq, Repr

namespace Level

/-- The weight as a number. -/
def number : Level → Nat
  | info => 20
  | success => 25
  | warning => 30
  | error => 40

/-- The name shown in front of a message. -/
def name : Level → String
  | info => "INFO"
  | success => "SUCCESS"
  | warning => "WARNING"
  | error => "ERROR"

/-- The sign in front of the text of a message. -/
def sign : Level → String
  | info => "ℹ️  "
  | success => "✅ "
  | warning => "⚠️  "
  | error => "❌ "

/-- The whole message of a text. -/
def message (level : Level) (text : String) : String := level.sign ++ text

end Level

/-- Whether a character has no meaning in markup. -/
def isPlain (c : Char) : Bool := c != '[' && c != '\\'

end Console

/-- A console. -/
structure Console where
  /-- A text that is protected from being taken for markup. -/
  escape : String → String
  /-- The lines that a message gives. -/
  emit : Console.Level → String → Except Mistake (List String)
  /-- A message without tags is shown. -/
  emit_plain : ∀ level text, '[' ∉ text.toList → ∃ lines, emit level text = .ok lines
  /-- Whether a message is shown does not depend on how it starts, if that is plain. -/
  emit_start : ∀ level front front' text lines, front.toList.all Console.isPlain = true →
    front'.toList.all Console.isPlain = true → emit level (front ++ text) = .ok lines →
    ∃ lines', emit level (front' ++ text) = .ok lines'

/-- The lines of a log message. -/
def Console.log (c : Console) (level : Level) (text : String) : Except Mistake (List String) :=
  c.emit level (level.message text)

end EsmLift
