import EventPipeline.Problem

/-!
Reading records of named fields from untyped values. A record may be written as members in any
order, or as a list of its fields. A repeated field is a problem at its second name; a required
field that is not there is a problem at the end of the record, the first in the record's order.
-/

namespace EventPipeline

/-- A field of a record `D`, read from a value `V`. -/
structure Field (V D : Type) where
  name : String
  /-- Whether the record must have the field; otherwise it has a default. -/
  required : Bool
  read : V → D → Except Problem D

/-- How a record `D` is read from values `V`. -/
structure Schema (V D : Type) where
  name : String
  fields : List (Field V D)
  /-- What a member of another name does. -/
  other : String → V → D → Except Problem D

namespace Schema

variable {V D : Type}

/-- A record in the making, with the names of the fields that were read. -/
structure Draft (D : Type) where
  seen : List String
  record : D

/-- Reads one member into a draft. -/
def member (s : Schema V D) (draft : Draft D) (name : String) (value : V) :
    Except Problem (Draft D) :=
  match s.fields.find? fun field => field.name == name with
  | none => return { draft with record := (← s.other name value draft.record) }
  | some field =>
    if draft.seen.contains name then .error (.duplicateField name)
    else return ⟨name :: draft.seen, ← field.read value draft.record⟩

/-- The record of a draft whose members have all been read. -/
def complete (s : Schema V D) (draft : Draft D) : Except Problem D :=
  match s.fields.find? fun field => field.required && !draft.seen.contains field.name with
  | some field => .error (.missingField field.name)
  | none => .ok draft.record

/-- Reads a list of fields; returns the record and the values that are left over. -/
def items (s : Schema V D) (record : D) (index : Nat) :
    List (Field V D) → List V → Except Problem (D × List V)
  | [], values => .ok (record, values)
  | field :: fields, value :: values => do
    items s (← field.read value record) (index + 1) fields values
  | field :: fields, [] =>
    if field.required then .error (.tooShort index s.name s.fields.length)
    else items s record (index + 1) fields []

end Schema

/-- Values of a data format, from which typed data can be read. -/
class Untyped (V : Type) where
  asText : V → Except Problem String
  /-- Reads the value that stands for nothing, if the format has one, as nothing. -/
  asOptional {α : Type} (read : V → Except Problem α) : V → Except Problem (Option α)
  asList {α : Type} (read : V → Except Problem α) : V → Except Problem (List α)
  asRecord {D : Type} (s : Schema V D) (start : D) : V → Except Problem D
  /-- Passes over a value that nobody asked for. -/
  skip : V → Except Problem Unit

/-- Passes over a member that a record does not have. -/
def Untyped.skipMember {V D : Type} [Untyped V] (_name : String) (value : V) (record : D) :
    Except Problem D := do
  skip value
  return record

end EventPipeline
