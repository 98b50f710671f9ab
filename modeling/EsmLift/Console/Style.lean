import EsmLift.Console.Mistake
import EsmLift.Text.Blank
import EsmLift.Text.Digit
import EsmLift.Text.Lowercase

/-!
# `Console.Style` — names of styles, normalised

A style is a list of words: features such as `bold` (or `b` for short), possibly after `not`, a colour, a
background colour after `on`, and a link. Two names of one style have one normal form; a name that is no style
is only stripped and put into lower case. A colour with an empty component cannot be judged at all.

## Contents

* `featureOf`, `isColour`;
* `Style`, `Style.ofWords`, `Style.text`;
* `normalise`.
-/

namespace EsmLift.Markup

/-- The features of a style, in the order in which they are written. -/
def features : List String :=
  ["bold", "dim", "italic", "underline", "blink", "blink2", "reverse", "conceal", "strike",
    "underline2", "frame", "encircle", "overline"]

/-- The short names of features. -/
def shortFeatures : List (String × String) :=
  [("d", "dim"), ("b", "bold"), ("i", "italic"), ("u", "underline"), ("r", "reverse"),
    ("c", "conceal"), ("s", "strike"), ("uu", "underline2"), ("o", "overline")]

/-- The feature that a word names. -/
def featureOf (word : String) : Option String :=
  if features.contains word then some word else shortFeatures.lookup word

/-- The colours that have a name. -/
def colourNames : List String := [
  "black", "red", "green", "yellow", "blue", "magenta", "cyan", "white", "bright_black", "bright_red",
  "bright_green", "bright_yellow", "bright_blue", "bright_magenta", "bright_cyan", "bright_white", "grey0",
  "gray0", "navy_blue", "dark_blue", "blue3", "blue1", "dark_green", "deep_sky_blue4", "dodger_blue3",
  "dodger_blue2", "green4", "spring_green4", "turquoise4", "deep_sky_blue3", "dodger_blue1", "green3",
  "spring_green3", "dark_cyan", "light_sea_green", "deep_sky_blue2", "deep_sky_blue1", "spring_green2",
  "cyan3", "dark_turquoise", "turquoise2", "green1", "spring_green1", "medium_spring_green", "cyan2",
  "cyan1", "dark_red", "deep_pink4", "purple4", "purple3", "blue_violet", "orange4", "grey37", "gray37",
  "medium_purple4", "slate_blue3", "royal_blue1", "chartreuse4", "dark_sea_green4", "pale_turquoise4",
  "steel_blue", "steel_blue3", "cornflower_blue", "chartreuse3", "cadet_blue", "sky_blue3", "steel_blue1",
  "pale_green3", "sea_green3", "aquamarine3", "medium_turquoise", "chartreuse2", "sea_green2",
  "sea_green1", "aquamarine1", "dark_slate_gray2", "dark_magenta", "dark_violet", "purple", "light_pink4",
  "plum4", "medium_purple3", "slate_blue1", "yellow4", "wheat4", "grey53", "gray53", "light_slate_grey",
  "light_slate_gray", "medium_purple", "light_slate_blue", "dark_olive_green3", "dark_sea_green",
  "light_sky_blue3", "sky_blue2", "dark_sea_green3", "dark_slate_gray3", "sky_blue1", "chartreuse1",
  "light_green", "pale_green1", "dark_slate_gray1", "red3", "medium_violet_red", "magenta3",
  "dark_orange3", "indian_red", "hot_pink3", "medium_orchid3", "medium_orchid", "medium_purple2",
  "dark_goldenrod", "light_salmon3", "rosy_brown", "grey63", "gray63", "medium_purple1", "gold3",
  "dark_khaki", "navajo_white3", "grey69", "gray69", "light_steel_blue3", "light_steel_blue", "yellow3",
  "dark_sea_green2", "light_cyan3", "light_sky_blue1", "green_yellow", "dark_olive_green2",
  "dark_sea_green1", "pale_turquoise1", "deep_pink3", "magenta2", "hot_pink2", "orchid", "medium_orchid1",
  "orange3", "light_pink3", "pink3", "plum3", "violet", "light_goldenrod3", "tan", "misty_rose3",
  "thistle3", "plum2", "khaki3", "light_goldenrod2", "light_yellow3", "grey84", "gray84",
  "light_steel_blue1", "yellow2", "dark_olive_green1", "honeydew2", "light_cyan1", "red1", "deep_pink2",
  "deep_pink1", "magenta1", "orange_red1", "indian_red1", "hot_pink", "dark_orange", "salmon1",
  "light_coral", "pale_violet_red1", "orchid2", "orchid1", "orange1", "sandy_brown", "light_salmon1",
  "light_pink1", "pink1", "plum1", "gold1", "navajo_white1", "misty_rose1", "thistle1", "yellow1",
  "light_goldenrod1", "khaki1", "wheat1", "cornsilk1", "grey100", "gray100", "grey3", "gray3", "grey7",
  "gray7", "grey11", "gray11", "grey15", "gray15", "grey19", "gray19", "grey23", "gray23", "grey27",
  "gray27", "grey30", "gray30", "grey35", "gray35", "grey39", "gray39", "grey42", "gray42", "grey46",
  "gray46", "grey50", "gray50", "grey54", "gray54", "grey58", "gray58", "grey62", "gray62", "grey66",
  "gray66", "grey70", "gray70", "grey74", "gray74", "grey78", "gray78", "grey82", "gray82", "grey85",
  "gray85", "grey89", "gray89", "grey93", "gray93"]

/-- Whether characters are hexadecimal digits in lower case. -/
def isHex (cs : List Char) : Bool :=
  cs.all fun c => c.isDigit || ('a' ≤ c && c ≤ 'f')

/-- The number that the digits of one colour component denote, which may be of any script. -/
def component (cs : List Char) : Except Mistake Nat :=
  if cs.isEmpty then .error .noDigits
  else if digitLimit < cs.length then .error (.tooManyDigits cs.length)
  else .ok (cs.foldl (fun n c => n * 10 + (Text.digitValue? c).getD 0) 0)

/-- The characters between an opening and a closing text, if a text has both. -/
def between (opening closing : String) (cs : List Char) : Option (List Char) :=
  let o := opening.toList
  let c := closing.toList
  if o.isPrefixOf cs && c.isSuffixOf cs && o.length + c.length ≤ cs.length then
    some ((cs.drop o.length).take (cs.length - o.length - c.length))
  else none

/-- Characters cut at commas. -/
def cutAtCommas (cs : List Char) : List (List Char) := cs.splitOnP (· == ',')

/-- Whether characters are one to three digits that denote a number below 256. -/
def isByte (cs : List Char) : Bool :=
  !cs.isEmpty && cs.length ≤ 3 && cs.all Char.isDigit &&
    cs.foldl (fun n c => n * 10 + (c.toNat - '0'.toNat)) 0 < 256

/-- Whether the characters in `rgb(…)` are three components below 256. A component without digits is a fault,
unless the number of components is wrong. -/
def isTriple (cs : List Char) : Except Mistake Bool :=
  if cs.all fun c => Text.isDecimal c || c == ',' then
    match cutAtCommas cs with
    | [red, green, blue] => do
      let red ← component red
      let green ← component green
      let blue ← component blue
      return red < 256 && green < 256 && blue < 256
    | _ => .ok false
  else .ok false

/-- Whether a word in lower case is a colour: a name, `#rrggbb`, `color(n)` or `rgb(r,g,b)`. -/
def isColour (word : String) : Except Mistake Bool :=
  let cs := word.toList
  match between "rgb(" ")" cs with
  | some inner => isTriple inner
  | none => .ok (
    word == "default" || colourNames.contains word ||
    (match cs with
      | '#' :: rest => rest.length == 6 && isHex rest
      | _ => false) ||
    (match between "color(" ")" cs with
      | some inner => isByte inner
      | none => false))

/-- What the words of a style say. -/
structure Style where
  /-- Features that are switched on or off. -/
  switches : List (String × Bool)
  colour : Option String
  background : Option String
  link : Option String

namespace Style

/-- The style without any word. -/
def plain : Style := ⟨[], none, none, none⟩

/-- Switches a feature. -/
def switch (s : Style) (feature : String) (on : Bool) : Style :=
  { s with switches := (feature, on) :: s.switches }

/-- Reads words one after another; nothing if they are no style. -/
def ofWords (s : Style) : List String → Except Mistake (Option Style)
  | [] => .ok (some s)
  | word :: rest =>
    let lower := Text.lowercase word
    if lower == "on" then
      match rest with
      | colour :: rest => do
        let colour := Text.lowercase colour
        if ← isColour colour then ofWords { s with background := some colour } rest else return none
      | [] => .ok none
    else if lower == "not" then
      match rest with
      | word :: rest =>
        match featureOf word with
        | some feature => ofWords (s.switch feature false) rest
        | none => .ok none
      | [] => .ok none
    else if lower == "link" then
      match rest with
      | link :: rest => ofWords { s with link := some link } rest
      | [] => .ok none
    else
      match featureOf lower with
      | some feature => ofWords (s.switch feature true) rest
      | none => do
        if ← isColour lower then ofWords { s with colour := some lower } rest else return none

/-- The words of a style in their normal order. -/
def words (s : Style) : List String :=
  (features.filterMap fun a =>
    match s.switches.lookup a with
    | some true => some a
    | some false => some ("not " ++ a)
    | none => none) ++
  s.colour.toList ++
  (s.background.toList.flatMap fun c => ["on", c]) ++
  (s.link.toList.flatMap fun l => ["link", l])

/-- The normal form of a style. -/
def text (s : Style) : String :=
  if s.words.isEmpty then "none" else " ".intercalate s.words

end Style

/-- The words of a text, cut at blanks. -/
def wordsOf (s : String) : List String :=
  ((s.toList.splitOnP Text.isBlank).filter (!·.isEmpty)).map String.ofList

/-- The normal form of the name of a style. -/
def normalise (name : String) : Except Mistake String :=
  if Text.strip name == "none" then .ok "none"
  else do
    match ← Style.plain.ofWords (wordsOf name) with
    | some s => return s.text
    | none => return Text.lowercase (Text.strip name)

end EsmLift.Markup
