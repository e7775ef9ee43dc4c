import EventPipeline.Binary64.Text
import EventPipeline.Json.Reader
import EventPipeline.Record

/-!
Reading typed data from JSON documents. A list or object in the wrong place is a problem at its
bracket, whatever it holds; any other value in the wrong place has to be read first.
-/

namespace EventPipeline.Json.Node

/-- What a message says stands here, if it can be read at all. -/
def found? : Node → Option Problem.Found
  | .null => some .null
  | .bool b => some (.boolean b)
  | .numeral n =>
    n.number?.map fun
      | .integer i => .integer i.value
      | .double x => .double x.scientificText
  | .text s => s.map .text
  | .array .. => some .sequence
  | .object .. => some .map
  | .broken => none

/-- The problem of a value that is not of the expected kind. -/
def mismatch (n : Node) (expected : Problem.Expected) : Problem :=
  match n.found? with
  | some found => .wrongKind found expected
  | none => .malformed

def asText : Node → Except Problem String
  | .text (some s) => .ok s
  | n => .error (n.mismatch .text)

/-- Reads null as nothing. -/
def asOptional {α : Type} (read : Node → Except Problem α) : Node → Except Problem (Option α)
  | .null => .ok none
  | n => some <$> read n

/-- Reads a tree that may nest `room` levels. -/
def asTree (room : Nat) (n : Node) : Except Problem Tree :=
  match n.tree? room with
  | some t => .ok t
  | none => .error .malformed

/-- Passes over a value that nobody asked for. -/
def skip (n : Node) : Except Problem Unit := if n.intact then .ok () else .error .malformed

/-- Fails unless a list or object has its closing bracket. -/
def mustClose (closed : Bool) : Except Problem Unit := if closed then .ok () else .error .malformed

def asList {α : Type} (read : Node → Except Problem α) : Node → Except Problem (List α)
  | .array items closed => do
    let values ← items.mapM read
    mustClose closed
    return values
  | n => .error (n.mismatch .sequence)

/-- Reads members one after the other. -/
def foldMembers {σ : Type} (read : String → Node → σ → Except Problem σ) :
    σ → List (Option String × Node) → Except Problem σ
  | s, [] => .ok s
  | s, (some name, n) :: rest => do foldMembers read (← read name n s) rest
  | _, (none, _) :: _ => .error .malformed

/-- Reads an object as a map of trees that may nest `room` levels. -/
def asMap (room : Nat) : Node → Except Problem (Keyed Tree)
  | .object members closed => do
    let m ← foldMembers (fun name n m => return Keyed.insert name (← n.asTree room) m) [] members
    mustClose closed
    return m
  | n => .error (n.mismatch .map)

/-- Reads an object as a record. -/
def asObject {D : Type} (s : Schema Node D) (start : D) : Node → Except Problem D
  | .object members closed => do
    let draft ← foldMembers (fun name n draft => s.member draft name n) ⟨[], start⟩ members
    mustClose closed
    s.complete draft
  | n => .error (n.mismatch (.record s.name))

/-- Reads an object, or a list of fields, as a record. -/
def asRecord {D : Type} (s : Schema Node D) (start : D) : Node → Except Problem D
  | .array items closed => do
    let (record, left) ← s.items start 0 s.fields items
    mustClose (closed && left.isEmpty)
    return record
  | n => n.asObject s start

instance : Untyped Node := ⟨asText, asOptional, asList, asRecord, skip⟩

end EventPipeline.Json.Node

namespace EventPipeline.Json

/-- Reads a whole text as typed data. -/
def readTyped {α : Type} (read : Node → Except Problem α) (s : String) : Except Problem α := do
  let document := Document.ofChars s.toList
  let value ← read document.value
  Node.mustClose document.ended
  return value

/-- Reads the bytes of a whole text as typed data. -/
def decodeTyped {α : Type} (read : Node → Except Problem α) (bytes : ByteArray) :
    Except Problem α :=
  match String.fromUTF8? bytes with
  | some s => readTyped read s
  | none => .error .malformed

end EventPipeline.Json
