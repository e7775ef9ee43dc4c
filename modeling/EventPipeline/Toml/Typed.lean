import EventPipeline.Binary64.Text
import EventPipeline.Record
import EventPipeline.Toml.Reader

/-!
Reading typed data from TOML documents. Nothing in a document stands for nothing, values that
nobody asked for say nothing, and a date counts as a table without members that anybody asks for.
-/

namespace EventPipeline.Toml.Value

/-- What a message says stands here. -/
def found : Value → Problem.Found
  | .text s => .text s
  | .integer n => .integer n
  | .double x => .double x.pointedText
  | .bool b => .boolean b
  | .time => .map
  | .array _ => .sequence
  | .table _ => .map

def mismatch (v : Value) (expected : Problem.Expected) : Problem := .wrongKind v.found expected

def asText : Value → Except Problem String
  | .text s => .ok s
  | v => .error (v.mismatch .text)

/-- Reads a count. -/
def asCount : Value → Except Problem Nat
  | .integer n => if 0 ≤ n then .ok n.toNat else .error (.outOfBounds (.integer n) .count)
  | v => .error (v.mismatch .count)

def asList {α : Type} (read : Value → Except Problem α) : Value → Except Problem (List α)
  | .array items => items.mapM read
  | v => .error (v.mismatch .sequence)

/-- Reads members one after the other. -/
def foldMembers {σ : Type} (read : String → Value → σ → Except Problem σ) :
    σ → List (String × Value) → Except Problem σ
  | s, [] => .ok s
  | s, (name, v) :: rest => do foldMembers read (← read name v s) rest

/-- Reads a table as a record. -/
def asTable {D : Type} (s : Schema Value D) (start : D) (members : List (String × Value)) :
    Except Problem D := do
  let draft ← foldMembers (fun name v draft => s.member draft name v) ⟨[], start⟩ members
  s.complete draft

/-- Reads a table, or a list of fields, as a record; a list may go on after the last field. -/
def asRecord {D : Type} (s : Schema Value D) (start : D) : Value → Except Problem D
  | .table members => asTable s start members
  | .time => asTable s start []
  | .array items => Prod.fst <$> s.items start 0 s.fields items
  | v => .error (v.mismatch (.record s.name))

instance : Untyped Value where
  asText := asText
  asOptional read v := some <$> read v
  asList := asList
  asRecord := asRecord
  skip _ := .ok ()

end EventPipeline.Toml.Value
