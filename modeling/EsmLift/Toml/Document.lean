import EsmLift.Toml.Scalar

/-!
# `Toml.Document` — a whole configuration file

A document is a sequence of lines: entries `key = value`, headers `[table]` and `[[array of tables]]`, comments.
A table can be opened by one header only, and a table or an array that is written in one piece cannot be added
to; `Flags` keeps track of this.

## Contents

* `readKey`: dotted keys;
* `Table.modify`, `Table.append`: changes inside nested tables;
* `Flags`: which tables are closed;
* `readValue`, `readArray`, `readInline`: values;
* `State`, `readStatement`, `readDocument`, `parse`.
-/

namespace EsmLift.Toml

/-! ## Keys -/

/-- Whether a character may stand in a key without quotes. -/
def isBare (c : Char) : Bool := c.isAlphanum || c == '-' || c == '_'

/-- One part of a dotted key. -/
def readKeyPart (cs : List Char) : Option (String × List Char) :=
  match cs with
  | '\'' :: rest => readLiteral rest
  | '"' :: rest => readBasic (rest.length + 1) [] rest
  | _ =>
    let name := cs.takeWhile isBare
    if name.isEmpty then none else some (String.ofList name, cs.drop name.length)

/-- A dotted key, and the input behind it and the blanks that follow. -/
def readKey (fuel : Nat) (cs : List Char) : Option (List String × List Char) :=
  match fuel with
  | 0 => none
  | fuel + 1 =>
    match readKeyPart cs with
    | none => none
    | some (part, rest) =>
      match skipBlanks rest with
      | '.' :: rest => (readKey fuel (skipBlanks rest)).map fun (parts, rest) => (part :: parts, rest)
      | rest => some ([part], rest)

/-! ## Tables -/

namespace Table

/-- Assigns to a key, which keeps its place if it is there. -/
def put : Table → String → Value → Table
  | [], key, value => [(key, value)]
  | (k, v) :: rest, key, value => if k = key then (k, value) :: rest else (k, v) :: put rest key value

/-- Changes the table at the end of a path, with missing tables on the way made. Of an array of tables on the
way the last one is meant, if `throughArrays`. Nothing if something else is in the way. -/
def modify (throughArrays : Bool) (change : Table → Option Table) : List String → Table → Option Table
  | [], t => change t
  | key :: path, t =>
    match t.lookup key with
    | none => (modify throughArrays change path []).map fun s => put t key (.table s)
    | some (.table s) => (modify throughArrays change path s).map fun s => put t key (.table s)
    | some (.array items) =>
      if throughArrays then
        match items.getLast? with
        | some (.table s) =>
          (modify throughArrays change path s).map fun s =>
            put t key (.array (items.dropLast ++ [.table s]))
        | _ => none
      else none
    | some _ => none

/-- Adds an entry under a new key. -/
def insertNew (key : String) (value : Value) (t : Table) : Option Table :=
  match t.lookup key with
  | none => some (t ++ [(key, value)])
  | some _ => none

/-- Adds an empty table to the array of tables under a key. -/
def append (key : String) (t : Table) : Option Table :=
  match t.lookup key with
  | none => some (t ++ [(key, .array [.table []])])
  | some (.array items) => some (put t key (.array (items ++ [.table []])))
  | some _ => none

end Table

/-! ## Flags -/

/-- Why a table can no longer be opened or changed. -/
inductive Flag where
  /-- It was written in one piece; what is inside it is frozen too. -/
  | frozen
  /-- It was opened by a header or a dotted key. -/
  | opened
  deriving DecidableEq

/-- The flags of paths. A frozen path covers all paths behind it. -/
abbrev Flags := List (List String × Flag)

namespace Flags

/-- Whether a path has a flag; freezing reaches down to longer paths. -/
def has (flags : Flags) (path : List String) (flag : Flag) : Bool :=
  flags.any fun (p, f) =>
    f == flag && (p == path || (f == .frozen && p.isPrefixOf path && !p.isEmpty))

/-- Forgets the flags of a path and of all paths behind it. -/
def clear (flags : Flags) (path : List String) : Flags :=
  flags.filter fun (p, _) => !path.isPrefixOf p

end Flags

/-- Whether a value was written in one piece. -/
def isContainer : Value → Bool
  | .array _ => true
  | .table _ => true
  | _ => false

/-- A path without its last part, and the last part. -/
def splitLast : List String → List String × String
  | [] => ([], "")
  | [k] => ([], k)
  | k :: rest =>
    let (path, last) := splitLast rest
    (k :: path, last)

/-! ## Values -/

mutual
/-- A value. -/
def readValue (fuel : Nat) (cs : List Char) : Except Refusal (Value × List Char) :=
  match fuel with
  | 0 => .error .malformed
  | fuel + 1 =>
    match cs with
    | '"' :: _ => (demand (readText cs)).map fun (s, rest) => (.text s, rest)
    | '\'' :: _ => (demand (readText cs)).map fun (s, rest) => (.text s, rest)
    | 't' :: 'r' :: 'u' :: 'e' :: rest => .ok (.bool true, rest)
    | 'f' :: 'a' :: 'l' :: 's' :: 'e' :: rest => .ok (.bool false, rest)
    | '[' :: rest => (readArray fuel rest).map fun (items, rest) => (.array items, rest)
    | '{' :: rest =>
      match skipBlanks rest with
      | '}' :: rest => .ok (.table [], rest)
      | rest => (readInline fuel [] [] rest).map fun (t, rest) => (.table t, rest)
    | _ =>
      match readMoment cs with
      | .found iso rest => .ok (.moment iso, rest)
      | .impossible => .error .malformed
      | .absent => readNumber cs

/-- The items of an array, up to its closing bracket; a comma may stand before it. -/
def readArray (fuel : Nat) (cs : List Char) : Except Refusal (List Value × List Char) :=
  match fuel with
  | 0 => .error .malformed
  | fuel + 1 =>
    match skipLines (cs.length + 1) cs with
    | none => .error .malformed
    | some (']' :: rest) => .ok ([], rest)
    | some cs =>
      match readValue fuel cs with
      | .error refusal => .error refusal
      | .ok (v, rest) =>
        match skipLines (rest.length + 1) rest with
        | some (']' :: rest) => .ok ([v], rest)
        | some (',' :: rest) => (readArray fuel rest).map fun (vs, rest) => (v :: vs, rest)
        | _ => .error .malformed

/-- The entries of a table in braces, up to its closing brace, added to those read before. -/
def readInline (fuel : Nat) (t : Table) (flags : Flags) (cs : List Char) :
    Except Refusal (Table × List Char) :=
  match fuel with
  | 0 => .error .malformed
  | fuel + 1 =>
    match readKey (cs.length + 1) cs with
    | some (key, '=' :: rest) =>
      match readValue fuel (skipBlanks rest) with
      | .error refusal => .error refusal
      | .ok (v, rest) =>
        let (path, last) := splitLast key
        if flags.has key .frozen then .error .malformed
        else
          match Table.modify false (Table.insertNew last v) path t with
          | none => .error .malformed
          | some t =>
            match skipBlanks rest with
            | '}' :: rest => .ok (t, rest)
            | ',' :: rest =>
              readInline fuel t (if isContainer v then (key, .frozen) :: flags else flags)
                (skipBlanks rest)
            | _ => .error .malformed
    | _ => .error .malformed
end

/-! ## Documents -/

/-- What was read of a document: its tables, the flags, those that wait for the next header, and the path of
the last header. -/
structure State where
  root : Table
  flags : Flags
  waiting : Flags
  header : List String

namespace State

/-- The start of a document. -/
def start : State := ⟨[], [], [], []⟩

/-- The proper paths on the way to a dotted key, seen from the last header. -/
def pathsTo (header : List String) (key : List String) : List (List String) :=
  (List.range key.length).filterMap fun i => if i = 0 then none else some (header ++ key.take i)

/-- Adds an entry. -/
def addEntry (s : State) (key : List String) (v : Value) : Option State :=
  let (path, last) := splitLast key
  let ways := pathsTo s.header key
  if ways.any (s.flags.has · .opened) then none
  else if s.flags.has (s.header ++ path) .frozen then none
  else
    match Table.modify true (Table.insertNew last v) (s.header ++ path) s.root with
    | none => none
    | some root =>
      some { s with
        root
        waiting := ways.map (fun p => (p, .opened)) ++ s.waiting
        flags := if isContainer v then (s.header ++ key, .frozen) :: s.flags else s.flags }

/-- Applies the flags that waited. -/
def settle (s : State) : State := { s with flags := s.waiting ++ s.flags, waiting := [] }

/-- Opens a table. -/
def openTable (s : State) (key : List String) : Option State :=
  if s.flags.has key .opened || s.flags.has key .frozen then none
  else
    match Table.modify true some key s.root with
    | none => none
    | some root => some { s with root, flags := (key, .opened) :: s.flags, header := key }

/-- Adds a table to an array of tables, and opens it. -/
def openItem (s : State) (key : List String) : Option State :=
  if s.flags.has key .frozen then none
  else
    let (path, last) := splitLast key
    match Table.modify true (Table.append last) path s.root with
    | none => none
    | some root => some { s with root, flags := (key, .opened) :: s.flags.clear key, header := key }

end State

/-- A header, from its first bracket on. -/
def readHeader? (s : State) (cs : List Char) : Option (State × List Char) :=
  match cs with
  | '[' :: '[' :: rest =>
    match readKey (rest.length + 1) (skipBlanks rest) with
    | some (key, ']' :: ']' :: rest) => (s.openItem key).map fun s => (s, rest)
    | _ => none
  | '[' :: rest =>
    match readKey (rest.length + 1) (skipBlanks rest) with
    | some (key, ']' :: rest) => (s.openTable key).map fun s => (s, rest)
    | _ => none
  | _ => none

/-- An entry. The value is read before it is known whether it can be added. -/
def readEntry (s : State) (cs : List Char) : Except Refusal (State × List Char) :=
  match readKey (cs.length + 1) cs with
  | some (key, '=' :: rest) =>
    match readValue (2 * rest.length + 2) (skipBlanks rest) with
    | .ok (v, rest) => (demand (s.addEntry key v)).map fun s => (s, rest)
    | .error refusal => .error refusal
  | _ => .error .malformed

/-- A statement at the front of a line that is neither empty nor a comment. -/
def readStatement (s : State) (cs : List Char) : Except Refusal (State × List Char) :=
  match cs with
  | '[' :: _ => demand (readHeader? s.settle cs)
  | '#' :: _ => .ok (s, cs)
  | _ => readEntry s cs

/-- The lines of a document. -/
def readDocument (fuel : Nat) (s : State) (cs : List Char) : Except Refusal Table :=
  match fuel with
  | 0 => .error .malformed
  | fuel + 1 =>
    match skipBlanks cs with
    | [] => .ok s.root
    | '\n' :: rest => readDocument fuel s rest
    | cs =>
      match readStatement s cs with
      | .error refusal => .error refusal
      | .ok (s, rest) =>
        match skipComment (skipBlanks rest) with
        | some [] => .ok s.root
        | some ('\n' :: rest) => readDocument fuel s rest
        | _ => .error .malformed

/-- A line end of two characters counts as one line feed. -/
def joinLineEnds : List Char → List Char
  | [] => []
  | '\r' :: '\n' :: rest => '\n' :: joinLineEnds rest
  | c :: rest => c :: joinLineEnds rest

/-- The root table of a document. The first thing in the text that is wrong decides how it is refused. -/
def parse (s : String) : Except Refusal Table :=
  let cs := joinLineEnds s.toList
  readDocument (cs.length + 1) .start cs

/-- The root table of the document in a file. -/
def decode (bytes : ByteArray) : Except Refusal Table :=
  match String.fromUTF8? bytes with
  | none => .error .notUtf8
  | some text => parse text

end EsmLift.Toml
