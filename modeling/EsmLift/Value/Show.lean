import EsmLift.Value.Basic

/-!
# `Value.Show` — values as text for people

`Value.literal` is the text of any value: text in quotes, lists in brackets, objects in braces with quoted keys.
`Value.shown` is the same but for a text, which is shown as it is. A value with a whole number in it that has too many
digits is not written at all, so writing may fail.

## Contents

* `Value.literal`, `Value.shown`: the text of a value;
* `Value.isWritable`: whether all numbers in a value can be written;
* `writeInt`, `Value.write`, `Value.say`: writing.
-/

namespace EsmLift

/-- A whole number in decimal digits. -/
def writeInt (i : Int) : Except Fault String := if isShort i then .ok (toString i) else .error .tooLong

theorem eq_of_writeInt {i : Int} {line : String} (h : writeInt i = .ok line) : toString i = line := by
  unfold writeInt at h
  split at h
  · exact Except.ok.inj h
  · cases h

namespace Value

mutual
/-- A value written out. -/
def literal : Value → String
  | null => "None"
  | bool true => "True"
  | bool false => "False"
  | int i => toString i
  | double d => d.text
  | text s => Text.quoted s
  | list _ items => "[" ++ ", ".intercalate (literals items) ++ "]"
  | tuple [x] => "(" ++ literal x ++ ",)"
  | tuple items => "(" ++ ", ".intercalate (literals items) ++ ")"
  | object _ fields => "\x7b" ++ ", ".intercalate (literalFields fields) ++ "\x7d"

/-- The items of a list written out. -/
def literals : List Value → List String
  | [] => []
  | v :: rest => literal v :: literals rest

/-- The fields of an object written out. -/
def literalFields : List (String × Value) → List String
  | [] => []
  | (k, v) :: rest => (Text.quoted k ++ ": " ++ literal v) :: literalFields rest
end

/-- A value as it stands in a sentence: text as it is, anything else written out. -/
def shown : Value → String
  | text s => s
  | v => v.literal

mutual
/-- Whether every whole number in a value has few enough digits to be written. -/
def isWritable : Value → Bool
  | int i => isShort i
  | list _ items => areWritable items
  | tuple items => areWritable items
  | object _ fields => areWritableFields fields
  | _ => true

/-- Whether the items of a list can be written. -/
def areWritable : List Value → Bool
  | [] => true
  | v :: rest => isWritable v && areWritable rest

/-- Whether the fields of an object can be written. -/
def areWritableFields : List (String × Value) → Bool
  | [] => true
  | (_, v) :: rest => isWritable v && areWritableFields rest
end

theorem areWritable_iff {xs : List Value} : areWritable xs = true ↔ ∀ x ∈ xs, x.isWritable = true := by
  induction xs with
  | nil => simp [areWritable]
  | cons x rest ih => rw [areWritable, Bool.and_eq_true, ih, List.forall_mem_cons]

theorem areWritableFields_iff {fs : Fields} : areWritableFields fs = true ↔ ∀ f ∈ fs, f.2.isWritable = true := by
  induction fs with
  | nil => simp [areWritableFields]
  | cons f rest ih =>
    obtain ⟨k, v⟩ := f
    rw [areWritableFields, Bool.and_eq_true, ih, List.forall_mem_cons]

theorem isWritable_list {m : Nat} {xs : List Value} :
    (list m xs).isWritable = true ↔ ∀ x ∈ xs, x.isWritable = true := by
  rw [isWritable, areWritable_iff]

theorem isWritable_object {m : Nat} {fs : Fields} :
    (object m fs).isWritable = true ↔ ∀ f ∈ fs, f.2.isWritable = true := by
  rw [isWritable, areWritableFields_iff]

/-- Writes a value out. -/
def write (v : Value) : Except Fault String := if v.isWritable then .ok v.literal else .error .tooLong

/-- Writes a value as it stands in a sentence. -/
def say (v : Value) : Except Fault String := if v.isWritable then .ok v.shown else .error .tooLong

/-- The name of the kind of a value. -/
def kindName : Value → String
  | null => "NoneType"
  | bool _ => "bool"
  | int _ => "int"
  | double _ => "float"
  | text _ => "str"
  | list .. => "list"
  | tuple _ => "tuple"
  | object .. => "dict"

end Value
end EsmLift
