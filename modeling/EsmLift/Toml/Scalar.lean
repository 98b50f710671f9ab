import EsmLift.Number.Limit
import EsmLift.Toml.Value

/-!
# `Toml.Scalar` — texts, numbers, dates and times

Every reader takes what it recognises off the front of the input and returns it with the rest, or nothing if the
input has no such front. Only a number can be refused for another reason: a whole number in base ten may have too
many digits.

## Contents

* `skipBlanks`, `skipComment`, `skipLines`: what may stand between the parts of a document;
* `readBasic`, `readLiteral`, `readText`: the four kinds of texts;
* `readNumber`: whole numbers in four bases, and reals;
* `readMoment`: dates, times and both together, in ISO form.
-/

namespace EsmLift.Toml

/-! ## Between the parts -/

/-- Blanks and tabs. -/
def isGap (c : Char) : Bool := c == ' ' || c == '\t'

/-- The input without blanks and tabs at its front. -/
def skipBlanks (cs : List Char) : List Char := cs.dropWhile isGap

/-- Control characters other than the tab may stand nowhere in a line. -/
def isIllegal (c : Char) : Bool := (c.toNat < 32 || c.toNat == 127) && c != '\t'

/-- The input without a comment at its front; nothing if the comment has an illegal character. -/
def skipComment : List Char → Option (List Char)
  | '#' :: rest =>
    let comment := rest.takeWhile (· != '\n')
    if comment.any isIllegal then none else some (rest.drop comment.length)
  | cs => some cs

/-- The input without blanks, line ends and comments at its front. -/
def skipLines (fuel : Nat) (cs : List Char) : Option (List Char) :=
  match fuel with
  | 0 => some cs
  | fuel + 1 =>
    let rest := cs.dropWhile fun c => isGap c || c == '\n'
    match rest with
    | '#' :: _ =>
      match skipComment rest with
      | some rest => skipLines fuel rest
      | none => none
    | _ => some rest

/-! ## Texts -/

/-- The value of a hexadecimal digit. -/
def hexValue? (c : Char) : Option Nat :=
  if c.isDigit then some (c.toNat - '0'.toNat)
  else if 'a' ≤ c ∧ c ≤ 'f' then some (c.toNat - 'a'.toNat + 10)
  else if 'A' ≤ c ∧ c ≤ 'F' then some (c.toNat - 'A'.toNat + 10)
  else none

/-- The number that exactly `count` hexadecimal digits denote. -/
def readHex (value : Nat) : Nat → List Char → Option (Nat × List Char)
  | 0, cs => some (value, cs)
  | _ + 1, [] => none
  | count + 1, c :: rest =>
    match hexValue? c with
    | some d => readHex (value * 16 + d) count rest
    | none => none

/-- The character that a code of `count` digits denotes. -/
def readCode (count : Nat) (cs : List Char) : Option (List Char × List Char) :=
  match readHex 0 count cs with
  | some (n, rest) =>
    if n < 0xD800 ∨ (0xDFFF < n ∧ n < 0x110000) then some ([Char.ofNat n], rest) else none
  | none => none

/-- The escape after a backslash: the characters it stands for, and the rest. -/
def readEscape : List Char → Option (List Char × List Char)
  | 'b' :: rest => some ([Char.ofNat 8], rest)
  | 't' :: rest => some (['\t'], rest)
  | 'n' :: rest => some (['\n'], rest)
  | 'f' :: rest => some ([Char.ofNat 12], rest)
  | 'r' :: rest => some (['\r'], rest)
  | '"' :: rest => some (['"'], rest)
  | '\\' :: rest => some (['\\'], rest)
  | 'u' :: rest => readCode 4 rest
  | 'U' :: rest => readCode 8 rest
  | _ => none

/-- A backslash at the end of a line, which swallows the blanks and line ends that follow. -/
def readLineEnd (cs : List Char) : Option (List Char × List Char) :=
  match skipBlanks cs with
  | [] => some ([], [])
  | '\n' :: rest => some ([], rest.dropWhile fun c => isGap c || c == '\n')
  | _ => none

/-- An escape in a text of several lines. -/
def readLongEscape : List Char → Option (List Char × List Char)
  | ' ' :: rest => readLineEnd rest
  | '\t' :: rest => readLineEnd rest
  | '\n' :: rest => readLineEnd ('\n' :: rest)
  | cs => readEscape cs

/-- The rest of a text in double quotes on one line; `done` holds what was read, last character first. -/
def readBasic (fuel : Nat) (done cs : List Char) : Option (String × List Char) :=
  match fuel, cs with
  | 0, _ => none
  | _, [] => none
  | fuel + 1, c :: rest =>
    if c == '"' then some (String.ofList done.reverse, rest)
    else if c == '\\' then
      match readEscape rest with
      | some (e, rest) => readBasic fuel (e.reverse ++ done) rest
      | none => none
    else if isIllegal c then none
    else readBasic fuel (c :: done) rest

/-- Up to two more quotes after the three that close a text belong to the text. -/
def extraQuotes (quote : Char) : List Char → List Char × List Char
  | c :: d :: rest =>
    if c == quote then
      if d == quote then ([quote, quote], rest) else ([quote], d :: rest)
    else ([], c :: d :: rest)
  | [c] => if c == quote then ([quote], []) else ([], [c])
  | [] => ([], [])

/-- The rest of a text in three double quotes. -/
def readLongBasic (fuel : Nat) (done cs : List Char) : Option (String × List Char) :=
  match fuel with
  | 0 => none
  | fuel + 1 =>
    match cs with
    | [] => none
    | '"' :: '"' :: '"' :: rest =>
      let (extra, rest) := extraQuotes '"' rest
      some (String.ofList (done.reverse ++ extra), rest)
    | '\\' :: rest =>
      match readLongEscape rest with
      | some (e, rest) => readLongBasic fuel (e.reverse ++ done) rest
      | none => none
    | c :: rest => if isIllegal c && c != '\n' then none else readLongBasic fuel (c :: done) rest

/-- The rest of a text in single quotes on one line. -/
def readLiteral (cs : List Char) : Option (String × List Char) :=
  let inside := cs.takeWhile (· != '\'')
  match cs.drop inside.length with
  | _ :: rest => if inside.any isIllegal then none else some (String.ofList inside, rest)
  | [] => none

/-- The rest of a text in three single quotes. -/
def readLongLiteral (done : List Char) : List Char → Option (String × List Char)
  | [] => none
  | '\'' :: '\'' :: '\'' :: rest =>
    let (extra, rest) := extraQuotes '\'' rest
    some (String.ofList (done.reverse ++ extra), rest)
  | c :: rest => if isIllegal c && c != '\n' then none else readLongLiteral (c :: done) rest

/-- The input without a line end at its front. -/
def skipLineEnd : List Char → List Char
  | '\n' :: rest => rest
  | cs => cs

/-- A text of any kind, from its opening quote on. -/
def readText : List Char → Option (String × List Char)
  | '"' :: '"' :: '"' :: rest => readLongBasic (rest.length + 1) [] (skipLineEnd rest)
  | '"' :: rest => readBasic (rest.length + 1) [] rest
  | '\'' :: '\'' :: '\'' :: rest => readLongLiteral [] (skipLineEnd rest)
  | '\'' :: rest => readLiteral rest
  | _ => none

/-! ## Numbers -/

/-- Digits that single underscores may divide: the digits, and the rest. -/
def digitRun (isDigit : Char → Bool) : List Char → List Char × List Char
  | [] => ([], [])
  | '_' :: c :: rest =>
    if isDigit c then
      let (ds, after) := digitRun isDigit rest
      (c :: ds, after)
    else ([], '_' :: c :: rest)
  | c :: rest =>
    if isDigit c then
      let (ds, after) := digitRun isDigit rest
      (c :: ds, after)
    else ([], c :: rest)

/-- A digit and the run behind it. -/
def digits? (isDigit : Char → Bool) : List Char → Option (List Char × List Char)
  | c :: rest =>
    if isDigit c then
      let (ds, after) := digitRun isDigit rest
      some (c :: ds, after)
    else none
  | [] => none

/-- The number that digits denote in a base. -/
def ofDigits (base : Nat) (ds : List Char) : Nat :=
  ds.foldl (fun n c => n * base + (hexValue? c).getD 0) 0

/-- A whole number in base sixteen, two or eight, after its leading zero. -/
def readBased : List Char → Option (Value × List Char)
  | 'x' :: rest => (digits? (fun c => (hexValue? c).isSome) rest).map fun (ds, rest) =>
      (.int (ofDigits 16 ds), rest)
  | 'b' :: rest => (digits? (fun c => c == '0' || c == '1') rest).map fun (ds, rest) =>
      (.int (ofDigits 2 ds), rest)
  | 'o' :: rest => (digits? (fun c => '0' ≤ c && c ≤ '7') rest).map fun (ds, rest) =>
      (.int (ofDigits 8 ds), rest)
  | _ => none

/-- The sign at the front of the input, true for a minus. -/
def readSign : List Char → Bool × List Char
  | '-' :: rest => (true, rest)
  | '+' :: rest => (false, rest)
  | cs => (false, cs)

/-- The digits before the point: a zero alone, or a run that does not start with zero. -/
def readWhole : List Char → Option (List Char × List Char)
  | '0' :: rest => some (['0'], rest)
  | cs => digits? Char.isDigit cs

/-- The digits behind the point, none if there are none. -/
def readFraction : List Char → List Char × List Char
  | '.' :: rest => (digits? Char.isDigit rest).getD ([], '.' :: rest)
  | cs => ([], cs)

/-- The exponent, if there is one. -/
def readExponent (cs : List Char) : Option Int × List Char :=
  match cs with
  | c :: rest =>
    if c == 'e' || c == 'E' then
      let (negative, after) := readSign rest
      match digits? Char.isDigit after with
      | some (ds, after) =>
        let n : Int := ofDigits 10 ds
        (some (if negative then -n else n), after)
      | none => (none, cs)
    else (none, cs)
  | [] => (none, [])

/-- A whole number in base ten, unless it has too many digits. -/
def wholeNumber (negative : Bool) (ds : List Char) : Except Refusal Value :=
  if digitLimit < ds.length then .error (.tooManyDigits ds.length)
  else
    let n : Int := ofDigits 10 ds
    .ok (.int (if negative then -n else n))

/-- The real number with the given digits before and behind the point and the given exponent. -/
def realNumber (negative : Bool) (whole fraction : List Char) (exponent : Int) : Value :=
  match Double.ofDecimal? negative (ofDigits 10 (whole ++ fraction)) (exponent - fraction.length) with
  | some d => .real (.finite d)
  | none => .real (.infinite negative)

/-- A number in base ten, whole unless it has a fraction or an exponent. -/
def readDecimal (cs : List Char) : Option (Except Refusal Value × List Char) :=
  let (negative, cs) := readSign cs
  match readWhole cs with
  | none => none
  | some (whole, cs) =>
    let (fraction, cs) := readFraction cs
    let (exponent, cs) := readExponent cs
    if fraction.isEmpty && exponent.isNone then some (wholeNumber negative whole, cs)
    else some (.ok (realNumber negative whole fraction (exponent.getD 0)), cs)

/-- A number with a name: an infinity, or not a number. -/
def readNamed (cs : List Char) : Option (Value × List Char) :=
  let (negative, rest) := readSign cs
  match rest with
  | 'i' :: 'n' :: 'f' :: rest => some (.real (.infinite negative), rest)
  | 'n' :: 'a' :: 'n' :: rest => some (.real .notANumber, rest)
  | _ => none

/-- A number. -/
def readNumber (cs : List Char) : Except Refusal (Value × List Char) :=
  let based :=
    match cs with
    | '0' :: rest => readBased rest
    | _ => none
  match based with
  | some r => .ok r
  | none =>
    match readDecimal cs with
    | some (.ok v, rest) => .ok (v, rest)
    | some (.error refusal, _) => .error refusal
    | none => demand (readNamed cs)

/-! ## Dates and times -/

/-- The number that exactly `count` digits denote, if it lies between two bounds. -/
def readField (count low high : Nat) (cs : List Char) : Option (Nat × List Char) :=
  let ds := cs.take count
  if ds.length = count ∧ ds.all Char.isDigit ∧ low ≤ ofDigits 10 ds ∧ ofDigits 10 ds ≤ high then
    some (ofDigits 10 ds, cs.drop count)
  else none

/-- The input behind an expected character. -/
def expect (c : Char) : List Char → Option (List Char)
  | d :: rest => if d == c then some rest else none
  | [] => none

/-- A number in at least `width` digits. -/
def zeroPadded (width n : Nat) : String :=
  let ds := Nat.toDigits 10 n
  String.ofList (List.replicate (width - ds.length) '0' ++ ds)

/-- The fraction of a second in six digits, empty if it is zero; further digits are dropped. -/
def readSecondFraction : List Char → String × List Char
  | '.' :: rest =>
    let ds := rest.takeWhile Char.isDigit
    if ds.isEmpty then ("", '.' :: rest)
    else
      let six := ds.take 6
      let micros := six ++ List.replicate (6 - six.length) '0'
      (if micros.all (· == '0') then "" else "." ++ String.ofList micros, rest.drop ds.length)
  | cs => ("", cs)

/-- A time of day in ISO form. -/
def readTime (cs : List Char) : Option (String × List Char) := do
  let (hour, cs) ← readField 2 0 23 cs
  let cs ← expect ':' cs
  let (minute, cs) ← readField 2 0 59 cs
  let cs ← expect ':' cs
  let (second, cs) ← readField 2 0 59 cs
  let (fraction, cs) := readSecondFraction cs
  some (zeroPadded 2 hour ++ ":" ++ zeroPadded 2 minute ++ ":" ++ zeroPadded 2 second ++ fraction, cs)

/-- The offset `+hh:mm` in ISO form; an offset of zero is positive. -/
def readHourOffset (cs : List Char) : Option (String × List Char) := do
  let (negative, cs) ←
    match cs with
    | '-' :: rest => some (true, rest)
    | '+' :: rest => some (false, rest)
    | _ => none
  let (hour, cs) ← readField 2 0 23 cs
  let cs ← expect ':' cs
  let (minute, cs) ← readField 2 0 59 cs
  let sign := if negative && (hour != 0 || minute != 0) then "-" else "+"
  some (sign ++ zeroPadded 2 hour ++ ":" ++ zeroPadded 2 minute, cs)

/-- The offset of a time in ISO form, empty if there is none. -/
def readOffset : List Char → String × List Char
  | 'Z' :: rest => ("+00:00", rest)
  | 'z' :: rest => ("+00:00", rest)
  | cs => (readHourOffset cs).getD ("", cs)

/-- The number of days of a month. -/
def daysIn (year month : Nat) : Nat :=
  if month = 2 then
    if year % 4 = 0 ∧ (year % 100 ≠ 0 ∨ year % 400 = 0) then 29 else 28
  else if [4, 6, 9, 11].contains month then 30
  else 31

/-- A date `yyyy-mm-dd` of any year and with any day up to 31. -/
def readDate (cs : List Char) : Option ((Nat × Nat × Nat) × List Char) := do
  let (year, cs) ← readField 4 0 9999 cs
  let cs ← expect '-' cs
  let (month, cs) ← readField 2 1 12 cs
  let cs ← expect '-' cs
  let (day, cs) ← readField 2 1 31 cs
  some ((year, month, day), cs)

/-- The time and the offset behind a date, empty if there are none. -/
def readTimeOfDate (cs : List Char) : String × List Char :=
  match cs with
  | c :: rest =>
    if c == 'T' || c == 't' || c == ' ' then
      match readTime rest with
      | some (time, rest) =>
        let (offset, rest) := readOffset rest
        ("T" ++ time ++ offset, rest)
      | none => ("", cs)
    else ("", cs)
  | [] => ("", [])

/-- What stands at the front of the input, as far as dates and times are concerned. -/
inductive MomentReading where
  /-- A date or a time in ISO form, and the rest. -/
  | found (iso : String) (rest : List Char)
  /-- A date that is in no calendar. -/
  | impossible
  | absent

/-- A date, a time, or both. -/
def readMoment (cs : List Char) : MomentReading :=
  match readDate cs with
  | some ((year, month, day), rest) =>
    let (time, rest) := readTimeOfDate rest
    if 0 < year ∧ day ≤ daysIn year month then
      .found (zeroPadded 4 year ++ "-" ++ zeroPadded 2 month ++ "-" ++ zeroPadded 2 day ++ time) rest
    else .impossible
  | none =>
    match readTime cs with
    | some (time, rest) => .found time rest
    | none => .absent

end EsmLift.Toml
