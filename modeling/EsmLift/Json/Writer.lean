import EsmLift.Value.Basic

/-!
# `Json.Writer` — values as JSON text

Fields are written in their order, without blanks. Only what must be escaped is escaped; doubles are written
with the fewest digits that read back, so that a whole number and a double never look alike.
-/

namespace EsmLift.Json

/-- A character inside a JSON text literal. -/
def escapeChar (c : Char) : List Char :=
  if c = '"' ∨ c = '\\' then ['\\', c]
  else if c = '\n' then ['\\', 'n']
  else if c = '\r' then ['\\', 'r']
  else if c = '\t' then ['\\', 't']
  else if c.toNat = 8 then ['\\', 'b']
  else if c.toNat = 12 then ['\\', 'f']
  else if c.toNat < 32 then '\\' :: 'u' :: Text.hex 4 c.toNat
  else [c]

/-- A text as a JSON literal. -/
def literal (s : String) : String :=
  "\"" ++ String.ofList (s.toList.flatMap escapeChar) ++ "\""

mutual
/-- A value as JSON text; a tuple is written as a list. -/
def write : Value → String
  | .null => "null"
  | .bool true => "true"
  | .bool false => "false"
  | .int i => toString i
  | .double d => d.text
  | .text s => literal s
  | .list _ items => "[" ++ ",".intercalate (writeItems items) ++ "]"
  | .tuple items => "[" ++ ",".intercalate (writeItems items) ++ "]"
  | .object _ fields => "\x7b" ++ ",".intercalate (writeFields fields) ++ "\x7d"

/-- The items of a list as JSON text. -/
def writeItems : List Value → List String
  | [] => []
  | v :: rest => write v :: writeItems rest

/-- The fields of an object as JSON text. -/
def writeFields : List (String × Value) → List String
  | [] => []
  | (k, v) :: rest => (literal k ++ ":" ++ write v) :: writeFields rest
end

end EsmLift.Json
