/-!
# `Text.Balance` — quotes and brackets

A text is balanced if every quote and every bracket in it is closed, and each bracket by its own counterpart.
Brackets in quotes do not count, and a backslash in quotes takes away the meaning of the next character.

## Contents

* `Imbalance` with its text;
* `imbalance?`: the first thing that is out of balance.
-/

namespace EsmLift.Text

/-- What is out of balance. -/
inductive Imbalance where
  /-- A bracket is still open at the end. -/
  | unclosed (bracket : Char)
  /-- A bracket is closed that was not opened. -/
  | unmatched (bracket : Char)
  /-- A bracket is closed by the counterpart of another one. -/
  | crossed (closing opening : Char)
  /-- A quote is still open at the end of its line. -/
  | unquoted
  deriving DecidableEq, Repr

/-- What is said about it. -/
def Imbalance.text : Imbalance → String
  | unclosed bracket => s!"'{bracket}' was never closed"
  | unmatched bracket => s!"unmatched '{bracket}'"
  | crossed closing opening =>
    s!"closing parenthesis '{closing}' does not match opening parenthesis '{opening}'"
  | unquoted => "unterminated string literal (detected at line 1)"

/-- The brackets, opening and closing. -/
def brackets : List (Char × Char) := [('(', ')'), ('{', '}'), ('[', ']')]

/-- The first thing out of balance in a text, inside the given quote if there is one, and with the given brackets
open, innermost first. -/
def imbalanceIn? (quote : Option Char) (opened : List Char) : List Char → Option Imbalance
  | [] =>
    match quote, opened with
    | some _, _ => some .unquoted
    | none, bracket :: _ => some (.unclosed bracket)
    | none, [] => none
  | c :: rest =>
    match quote with
    | some q =>
      if c == '\n' then some .unquoted
      else if c == '\\' then
        match rest with
        | [] => some .unquoted
        | _ :: rest => imbalanceIn? quote opened rest
      else imbalanceIn? (if c == q then none else quote) opened rest
    | none =>
      if c == '\'' || c == '"' then imbalanceIn? (some c) opened rest
      else if brackets.any (·.1 == c) then imbalanceIn? none (c :: opened) rest
      else if brackets.any (·.2 == c) then
        match opened with
        | [] => some (.unmatched c)
        | bracket :: opened =>
          if brackets.contains (bracket, c) then imbalanceIn? none opened rest
          else some (.crossed c bracket)
      else imbalanceIn? none opened rest

/-- The first thing out of balance in a text. -/
def imbalance? (cs : List Char) : Option Imbalance := imbalanceIn? none [] cs

end EsmLift.Text
