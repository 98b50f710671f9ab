import EsmLift.Value.Basic

/-!
# `Json.Reader` — values from JSON text

The reader keeps the order of keys, and tells a whole number (no point, no exponent) from a double. Each step
takes a character off the input, so the length of the input bounds the number of steps.

## Contents

* `readText`, `readNumber`: the leaves;
* `readValue`, `readItems`, `readFields`: values, each with the rest of the input;
* `read`: a whole text.
-/

namespace EsmLift.Json

/-- The input without the blanks at its front. -/
def skipBlanks (cs : List Char) : List Char :=
  cs.dropWhile fun c => c = ' ' || c = '\n' || c = '\r' || c = '\t'

/-- The value of a hexadecimal digit. -/
def hexDigit? (c : Char) : Option Nat :=
  if '0' ≤ c ∧ c ≤ '9' then some (c.toNat - '0'.toNat)
  else if 'a' ≤ c ∧ c ≤ 'f' then some (c.toNat - 'a'.toNat + 10)
  else if 'A' ≤ c ∧ c ≤ 'F' then some (c.toNat - 'A'.toNat + 10)
  else none

/-- Four hexadecimal digits. -/
def readHex : List Char → Option (Nat × List Char)
  | a :: b :: c :: d :: rest => do
    let a ← hexDigit? a
    let b ← hexDigit? b
    let c ← hexDigit? c
    let d ← hexDigit? d
    some (((a * 16 + b) * 16 + c) * 16 + d, rest)
  | _ => none

/-- The character that a code of four digits stands for, the second code of a surrogate pair included. -/
def readUnit (cs : List Char) : Option (Char × List Char) := do
  let (high, rest) ← readHex cs
  if 0xD800 ≤ high ∧ high ≤ 0xDBFF then
    match rest with
    | '\\' :: 'u' :: more =>
      let (low, rest) ← readHex more
      if 0xDC00 ≤ low ∧ low ≤ 0xDFFF then
        some (Char.ofNat (0x10000 + (high - 0xD800) * 0x400 + (low - 0xDC00)), rest)
      else none
    | _ => none
  else some (Char.ofNat high, rest)

/-- The character after a backslash. -/
def readEscape : List Char → Option (Char × List Char)
  | '"' :: rest => some ('"', rest)
  | '\\' :: rest => some ('\\', rest)
  | '/' :: rest => some ('/', rest)
  | 'b' :: rest => some (Char.ofNat 8, rest)
  | 'f' :: rest => some (Char.ofNat 12, rest)
  | 'n' :: rest => some ('\n', rest)
  | 'r' :: rest => some ('\r', rest)
  | 't' :: rest => some ('\t', rest)
  | 'u' :: rest => readUnit rest
  | _ => none

/-- The rest of a text literal after its opening quote; `done` holds what was read, last character first. -/
def readText (fuel : Nat) (done : List Char) (cs : List Char) : Option (String × List Char) :=
  match fuel, cs with
  | _, [] => none
  | 0, _ => none
  | fuel + 1, c :: rest =>
    if c = '"' then some (String.ofList done.reverse, rest)
    else if c = '\\' then
      match readEscape rest with
      | some (e, rest) => readText fuel (e :: done) rest
      | none => none
    else if c.toNat < 32 then none
    else readText fuel (c :: done) rest

/-- The digits at the front of the input. -/
def digits (cs : List Char) : List Char := cs.takeWhile Char.isDigit

/-- The number that decimal digits denote. -/
def ofDigits (cs : List Char) : Nat := cs.foldl (fun n c => n * 10 + (c.toNat - '0'.toNat)) 0

/-- The fractional part after a point, as digits; no digits if there is no point. -/
def readFraction : List Char → Option (List Char × List Char)
  | '.' :: rest =>
    let ds := digits rest
    if ds.isEmpty then none else some (ds, rest.drop ds.length)
  | cs => some ([], cs)

/-- An optional sign and at least one digit. -/
def readExponentDigits (cs : List Char) : Option (Int × List Char) :=
  let (negative, cs) : Bool × List Char :=
    match cs with
    | '-' :: rest => (true, rest)
    | '+' :: rest => (false, rest)
    | _ => (false, cs)
  let ds := digits cs
  if ds.isEmpty then none
  else
    let n : Int := ofDigits ds
    some (if negative then -n else n, cs.drop ds.length)

/-- The exponent, if there is one. -/
def readExponent : List Char → Option (Option Int × List Char)
  | 'e' :: rest => (readExponentDigits rest).map fun (n, rest) => (some n, rest)
  | 'E' :: rest => (readExponentDigits rest).map fun (n, rest) => (some n, rest)
  | cs => some (none, cs)

/-- Whether there is a minus sign at the front of the input, and the input behind it. -/
def readSign : List Char → Bool × List Char
  | '-' :: rest => (true, rest)
  | cs => (false, cs)

/-- A number. Without point and exponent it is a whole number, which may not have too many digits, else a double. -/
def readNumber (cs : List Char) : Option (Value × List Char) := do
  let (negative, cs) := readSign cs
  let whole := digits cs
  if whole.isEmpty then none
  else
    let cs := cs.drop whole.length
    let (fraction, cs) ← readFraction cs
    let (exponent, cs) ← readExponent cs
    if fraction.isEmpty && exponent.isNone then
      if digitLimit < whole.length then none
      else
        let n : Int := ofDigits whole
        some (.int (if negative then -n else n), cs)
    else
      let d ← Double.ofDecimal? negative (ofDigits (whole ++ fraction)) (exponent.getD 0 - fraction.length)
      some (.double d, cs)

mutual
/-- A value at the front of the input. -/
def readValue (fuel : Nat) (cs : List Char) : Option (Value × List Char) :=
  match fuel with
  | 0 => none
  | fuel + 1 =>
    match skipBlanks cs with
    | 'n' :: 'u' :: 'l' :: 'l' :: rest => some (.null, rest)
    | 't' :: 'r' :: 'u' :: 'e' :: rest => some (.bool true, rest)
    | 'f' :: 'a' :: 'l' :: 's' :: 'e' :: rest => some (.bool false, rest)
    | '"' :: rest => (readText fuel [] rest).map fun (s, rest) => (.text s, rest)
    | '[' :: rest =>
      match skipBlanks rest with
      | ']' :: rest => some (.newList [], rest)
      | rest => (readItems fuel rest).map fun (items, rest) => (.newList items, rest)
    | '{' :: rest =>
      match skipBlanks rest with
      | '}' :: rest => some (.new [], rest)
      | rest => (readFields fuel rest).map fun (fields, rest) => (.new fields, rest)
    | rest => readNumber rest

/-- The items of a list, up to its closing bracket. -/
def readItems (fuel : Nat) (cs : List Char) : Option (List Value × List Char) :=
  match fuel with
  | 0 => none
  | fuel + 1 =>
    match readValue fuel cs with
    | none => none
    | some (v, rest) =>
      match skipBlanks rest with
      | ']' :: rest => some ([v], rest)
      | ',' :: rest => (readItems fuel rest).map fun (vs, rest) => (v :: vs, rest)
      | _ => none

/-- The fields of an object, up to its closing brace. -/
def readFields (fuel : Nat) (cs : List Char) : Option (Fields × List Char) :=
  match fuel with
  | 0 => none
  | fuel + 1 =>
    match skipBlanks cs with
    | '"' :: rest =>
      match readText fuel [] rest with
      | none => none
      | some (key, rest) =>
        match skipBlanks rest with
        | ':' :: rest =>
          match readValue fuel rest with
          | none => none
          | some (v, rest) =>
            match skipBlanks rest with
            | '}' :: rest => some ([(key, v)], rest)
            | ',' :: rest => (readFields fuel rest).map fun (fs, rest) => ((key, v) :: fs, rest)
            | _ => none
        | _ => none
    | _ => none
end

end EsmLift.Json
