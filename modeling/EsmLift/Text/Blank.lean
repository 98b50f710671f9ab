import EsmLift.Text.CodeRange

/-!
# `Text.Blank` — white space, and text without it at its ends

Two classes are in use: `isBlank` also counts the information separators U+001C to U+001F, `isWhite` is the
`White_Space` property of Unicode.
-/

namespace EsmLift.Text

/-- Blank characters as ranges of code points. -/
def blankRanges : CodeRanges := [
  (9, 13), (28, 32), (133, 133), (160, 160), (5760, 5760), (8192, 8202), (8232, 8233),
  (8239, 8239), (8287, 8287), (12288, 12288)]

/-- Whether a character is blank. -/
def isBlank (c : Char) : Bool := blankRanges.has c

/-- Whether a character has the property `White_Space`: a blank that is no information separator. -/
def isWhite (c : Char) : Bool := isBlank c && !(28 ≤ c.toNat && c.toNat ≤ 31)

/-- Characters without those at either end that satisfy the test. -/
def trimBy (drop : Char → Bool) (cs : List Char) : List Char :=
  ((cs.dropWhile drop).reverse.dropWhile drop).reverse

/-- Text without the blanks at its ends. -/
def strip (s : String) : String := String.ofList (trimBy isBlank s.toList)

/-- Text without the blanks at its end. -/
def stripEnd (s : String) : String := String.ofList (s.toList.reverse.dropWhile isBlank).reverse

end EsmLift.Text
