import EsmLift.Console.Style

/-!
# `Console.Markup` — text with style tags

A tag is `[…]` with a lower-case letter, `#`, `/` or `@` after the bracket and no further opening bracket
inside. Backslashes in front of a tag come in pairs, each of which stands for one backslash; one left over
turns the tag into plain text. Rendering drops the tags and checks that closing tags have something to close.

A tag has a name and, behind an equals sign, parameters. If the name starts with `@` it is an action, and the
parameters are a handler with its arguments, which are checked when the tag is closed. The name and the parameters
of any other tag make up a style.

## Contents

* `Piece`, `pieces`: plain runs and tags;
* `escape`: text that renders to itself;
* `Tag`, `render`: what is shown;
* `paint`: whether the styles can be applied.
-/

namespace EsmLift.Markup

/-- A part of a marked-up text: a plain run, or a tag with the number of backslashes in front of it and the
position of its bracket. -/
inductive Piece where
  | plain (chars : List Char)
  | tag (slashes : Nat) (position : Nat) (chars : List Char)
  deriving DecidableEq, Repr

/-- Whether a character can follow the bracket of a tag. -/
def startsTag (c : Char) : Bool :=
  ('a' ≤ c && c ≤ 'z') || c == '#' || c == '/' || c == '@'

/-- The inside of the tag at the front of the input, and the rest. -/
def tagAt : List Char → Option (List Char × List Char)
  | '[' :: c :: rest =>
    if startsTag c then
      let inside := rest.takeWhile fun d => d != '[' && d != ']'
      match rest.drop inside.length with
      | ']' :: rest => some (c :: inside, rest)
      | _ => none
    else none
  | _ => none

/-- The pieces of a text that starts at `position`; `run` holds the plain characters in front, last first. -/
def scan (fuel : Nat) (run : List Char) (position : Nat) (cs : List Char) : List Piece :=
  match fuel with
  | 0 => [.plain run.reverse]
  | fuel + 1 =>
    match cs with
    | [] => [.plain run.reverse]
    | c :: rest =>
      let slashes := (cs.takeWhile (· == '\\')).length
      match tagAt (cs.drop slashes) with
      | some (inside, after) =>
        .plain run.reverse :: .tag slashes (position + slashes) inside ::
          scan fuel [] (position + slashes + inside.length + 2) after
      | none =>
        if slashes = 0 then scan fuel (c :: run) (position + 1) rest
        else scan fuel (List.replicate slashes '\\' ++ run) (position + slashes) (cs.drop slashes)

/-- The pieces of a text. -/
def pieces (cs : List Char) : List Piece := scan (cs.length + 1) [] 0 cs

/-- A tag as it is written. -/
def written (inside : List Char) : List Char := '[' :: inside ++ [']']

/-! ## Escaping -/

/-- A piece with its tag escaped. -/
def Piece.escaped : Piece → List Char
  | plain cs => cs
  | tag slashes _ inside => List.replicate (2 * slashes + 1) '\\' ++ written inside

/-- A backslash more if the text ends with one that is alone. -/
def guardEnd (cs : List Char) : List Char :=
  match cs.reverse with
  | '\\' :: '\\' :: _ => cs
  | '\\' :: _ => cs ++ ['\\']
  | _ => cs

/-- Text in which no tag is taken for one. -/
def escape (s : String) : String :=
  String.ofList (guardEnd ((pieces s.toList).flatMap Piece.escaped))

/-! ## Rendering -/

/-- A plain run as it is shown: a bracket loses the backslash in front of it. -/
def unslashed : List Char → List Char
  | [] => []
  | '\\' :: '[' :: rest => '[' :: unslashed rest
  | c :: rest => c :: unslashed rest

/-- The name in a tag: what stands before an equals sign. -/
def tagName (inside : List Char) : String := String.ofList (inside.takeWhile (· != '='))

/-- The parameters in a tag: what stands behind an equals sign. -/
def tagParameters (inside : List Char) : List Char := (inside.dropWhile (· != '=')).drop 1

/-- An open tag. -/
structure Tag where
  name : String
  parameters : List Char
  deriving DecidableEq, Repr

/-- The innermost open tag of the given name, and the other open tags. -/
def closeNamed (name : String) : List Tag → Option (Tag × List Tag)
  | [] => none
  | t :: rest =>
    if t.name == name then some (t, rest)
    else (closeNamed name rest).map fun (found, rest) => (found, t :: rest)

/-- Whether a character can be in the name of a handler. -/
def isHandlerChar (c : Char) : Bool := c.isAlphanum || c == '_' || c == '.' || 127 < c.toNat

/-- The arguments in the parameters of an action: what stands in parentheses behind the name of a handler, and all
of it if it has another form. -/
def actionArguments (cs : List Char) : List Char :=
  match cs.dropWhile isHandlerChar with
  | [] => ['(', ')']
  | '(' :: rest => if rest.getLast? == some ')' && !rest.contains '\n' then '(' :: rest else cs
  | _ => cs

/-- Closes a tag. -/
def Tag.close (t : Tag) : Except Mistake Unit :=
  if t.name.toList.head? == some '@' && !t.parameters.isEmpty then
    let arguments := actionArguments (Text.trimBy Text.isBlank t.parameters)
    match Text.imbalance? arguments with
    | some reason => .error (.unbalancedAction (String.ofList arguments) (String.ofList t.parameters) reason)
    | none => .ok ()
  else .ok ()

/-- The open tags, innermost first, after a tag. -/
def step (opened : List Tag) (position : Nat) (inside : List Char) : Except Mistake (List Tag) :=
  match inside with
  | '/' :: _ =>
    let name := Text.strip (String.ofList ((tagName inside).toList.drop 1))
    if name == "" then
      match opened with
      | [] => .error (.nothingToClose position)
      | t :: rest => t.close.map fun _ => rest
    else do
      match closeNamed (← normalise name) opened with
      | some (t, opened) => t.close.map fun _ => opened
      | none => .error (.unmatchedTag (String.ofList (written inside)) position)
  | _ => (normalise (tagName inside)).map fun name => ⟨name, tagParameters inside⟩ :: opened

/-- What pieces show, given the open tags. -/
def renderPieces (opened : List Tag) : List Piece → Except Mistake (List Char)
  | [] => .ok []
  | .plain cs :: rest => do
    let shown ← renderPieces opened rest
    return unslashed cs ++ shown
  | .tag slashes position inside :: rest => do
    let front := List.replicate (slashes / 2) '\\'
    if slashes % 2 = 1 then
      let shown ← renderPieces opened rest
      return front ++ written inside ++ shown
    else
      let opened ← step opened position inside
      let shown ← renderPieces opened rest
      return front ++ shown

/-- Control characters that a console does not show: bell, backspace, vertical tab, form feed and carriage
return. -/
def isDropped (c : Char) : Bool := [7, 8, 11, 12, 13].contains c.toNat

/-- What a marked-up text shows. -/
def render (s : String) : Except Mistake String := do
  let shown ← renderPieces [] (pieces s.toList)
  return String.ofList (shown.filter (!isDropped ·))

/-- Applies the style of a tag. -/
def paintTag (inside : List Char) : Except Mistake Unit :=
  if inside.head? == some '/' then .ok ()
  else do
    let name ← normalise (tagName inside)
    let words := wordsOf (name ++ " " ++ String.ofList (tagParameters inside))
    (Style.plain.ofWords words).map fun _ => ()

/-- Applies the styles in a text; a word that is no style is passed over, but a colour with an empty component is a
fault. -/
def paint (s : String) : Except Mistake Unit :=
  (pieces s.toList).forM fun
    | .plain _ => .ok ()
    | .tag slashes _ inside => if slashes % 2 = 1 then .ok () else paintTag inside

end EsmLift.Markup
