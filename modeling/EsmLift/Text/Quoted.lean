import EsmLift.Text.Unprintable

/-!
# `Text.Quoted` — text in quotes

Text is shown between single quotes, or between double quotes if it has a single quote and no double one. The
backslash and the quote in use get a backslash in front; line feed, carriage return and tab are written `\n`,
`\r`, `\t`; any other unprintable character is written by its code in two, four or eight hexadecimal digits.
-/

namespace EsmLift.Text

/-- A number in lower-case hexadecimal digits, at least `width` of them. -/
def hex (width n : Nat) : List Char :=
  let ds := Nat.toDigits 16 n
  List.replicate (width - ds.length) '0' ++ ds

/-- The quote that encloses a text. -/
def quoteFor (cs : List Char) : Char :=
  if cs.contains '\'' && !cs.contains '"' then '"' else '\''

/-- A character between the given quotes. -/
def quoteChar (quote c : Char) : List Char :=
  if c = quote ∨ c = '\\' then ['\\', c]
  else if c = '\n' then ['\\', 'n']
  else if c = '\r' then ['\\', 'r']
  else if c = '\t' then ['\\', 't']
  else if isPrintable c then [c]
  else if c.toNat < 256 then '\\' :: 'x' :: hex 2 c.toNat
  else if c.toNat < 65536 then '\\' :: 'u' :: hex 4 c.toNat
  else '\\' :: 'U' :: hex 8 c.toNat

/-- Characters in quotes. -/
def quoteChars (cs : List Char) : List Char :=
  let q := quoteFor cs
  q :: cs.flatMap (quoteChar q) ++ [q]

/-- Text in quotes. -/
def quoted (s : String) : String := String.ofList (quoteChars s.toList)

end EsmLift.Text
