import EsmLift.Number.Limit
import EsmLift.Text.Blank

/-!
# `Validation.WholeText` — a whole number written as text

A number in its plain form is a sign for negative numbers and digits without a leading zero. A text in another
form is brought into the plain form first: blanks around it, a plus sign, zeros in front, a fraction of zeros and
single underscores between digits are taken away.

## Contents

* `Reading`, `plain`: the plain form;
* `significant`, `withoutFraction`, `joined`: the parts of the clean-up, in the order in which they are applied;
* `readWhole`: a text in either form.
-/

namespace EsmLift.Validation

/-- The outcome of reading a number. -/
inductive Reading where
  | number (i : Int)
  /-- The number has too many digits. -/
  | tooLong
  | invalid
  deriving DecidableEq, Repr

/-- The number that decimal digits denote. -/
def ofDigits (ds : List Char) : Nat := ds.foldl (fun n c => n * 10 + (c.toNat - '0'.toNat)) 0

/-- Whether a character is a digit other than zero. -/
def isNonZero (c : Char) : Bool := '1' ≤ c && c ≤ '9'

/-- Digits without a leading zero. What follows the digits is looked at only if there are not too many of them. -/
def plainDigits : List Char → Reading
  | ['0'] => .number 0
  | '0' :: _ => .invalid
  | cs =>
    let ds := cs.takeWhile Char.isDigit
    if ds.isEmpty then .invalid
    else if digitLimit < ds.length then .tooLong
    else if ds.length < cs.length then .invalid
    else .number (ofDigits ds)

/-- A number with the opposite sign. -/
def Reading.negated : Reading → Reading
  | number i => number (-i)
  | r => r

/-- A number in its plain form. -/
def plain : List Char → Reading
  | '-' :: rest => (plainDigits rest).negated
  | cs => plainDigits cs

/-- The part of a number behind a zero: zeros and underscores that follow are dropped with it, but the last
character before a point stays, and so does the last one of all. -/
def behindZero (last : Char) : List Char → Option (List Char)
  | [] => some [last]
  | c :: rest =>
    if c == '0' || c == '_' then behindZero c rest
    else if c == '.' then some (last :: c :: rest)
    else if isNonZero c || c == '-' then some (c :: rest)
    else none

/-- A number without zeros in front; nothing if it does not start with a digit. -/
def significant : List Char → Option (List Char)
  | [] => none
  | c :: rest =>
    if c == '0' then behindZero c rest
    else if isNonZero c then some (c :: rest)
    else none

/-- A number without a fraction of zeros. -/
def withoutFraction (cs : List Char) : List Char :=
  let whole := cs.takeWhile (· != '.')
  let fraction := cs.drop (whole.length + 1)
  if !fraction.isEmpty && fraction.all (· == '0') then whole else cs

/-- Whether two underscores stand side by side. -/
def hasDoubled : List Char → Bool
  | '_' :: '_' :: _ => true
  | _ :: rest => hasDoubled rest
  | [] => false

/-- A number without underscores, if they stand alone and not at an end. -/
def joined (cs : List Char) : List Char :=
  if cs.head? == some '_' || cs.getLast? == some '_' || hasDoubled cs then cs
  else cs.filter (· != '_')

/-- A number without its sign and the zeros in front, and then with the sign if it is a minus. -/
def withoutZeros : List Char → Option (List Char)
  | '-' :: rest => (significant rest).map ('-' :: ·)
  | '+' :: rest => significant rest
  | cs => significant cs

/-- A text brought into the plain form, as far as possible. -/
def cleaned (cs : List Char) : Option (List Char) :=
  (withoutZeros (Text.trimBy Text.isWhite cs)).map fun cs => joined (withoutFraction cs)

/-- A whole number written as text. -/
def readWhole (s : String) : Reading :=
  match plain s.toList with
  | .invalid =>
    match cleaned s.toList with
    | some cs => plain cs
    | none => .invalid
  | r => r

end EsmLift.Validation
