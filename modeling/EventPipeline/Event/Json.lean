import EventPipeline.Event.Basic
import EventPipeline.Instant.Text
import EventPipeline.Json.Typed
import EventPipeline.Json.Writer

/-!
Events and contexts in JSON texts. Both are objects with the attributes in order, of which the
optional ones may be missing. A context has its extensions in a member of their own; in an event
they are members beside the attributes.
-/

namespace EventPipeline

open Json

namespace Context

def timeOfNode (n : Node) : Except Problem Instant :=
  match n with
  | .text (some s) =>
    match Instant.ofText? s with
    | some t => .ok t
    | none => .error .malformed
  | n => .error (n.mismatch .time)

/-- The attributes, in order. -/
def attributes : List (Field Node Context) := [
  ⟨"specversion", true, fun n c => return { c with specversion := ← n.asText }⟩,
  ⟨"id", true, fun n c => return { c with id := ← n.asText }⟩,
  ⟨"source", true, fun n c => return { c with source := ← n.asText }⟩,
  ⟨"type", true, fun n c => return { c with type := ← n.asText }⟩,
  ⟨"datacontenttype", false, fun n c =>
    return { c with datacontenttype := ← n.asOptional Node.asText }⟩,
  ⟨"dataschema", false, fun n c => return { c with dataschema := ← n.asOptional Node.asText }⟩,
  ⟨"subject", false, fun n c => return { c with subject := ← n.asOptional Node.asText }⟩,
  ⟨"time", false, fun n c => return { c with time := ← n.asOptional timeOfNode }⟩]

/-- Extensions are two levels below a context. -/
def extensionsField : Field Node Context :=
  ⟨"Extensions", false, fun n c => return { c with extensions := ← n.asMap (nestingLimit - 2) }⟩

def schema : Schema Node Context where
  name := "EventContext"
  fields := attributes ++ [extensionsField]
  other := Untyped.skipMember

def ofNode (n : Node) : Except Problem Context := n.asRecord schema {}

/-- A member with a text, if there is one. -/
def textMember (name : String) (value : Option String) : List (String × Tree) :=
  (value.map fun s => (name, Tree.text s)).toList

/-- The attributes as members. -/
def attributeMembers (c : Context) : List (String × Tree) :=
  [("specversion", .text c.specversion), ("id", .text c.id), ("source", .text c.source),
    ("type", .text c.type)] ++
    textMember "datacontenttype" c.datacontenttype ++ textMember "dataschema" c.dataschema ++
    textMember "subject" c.subject ++ textMember "time" (c.time.map Instant.text)

def tree (c : Context) : Tree :=
  .object (c.attributeMembers ++
    if c.extensions.isEmpty then [] else [("Extensions", .object c.extensions)])

def text (c : Context) : String := Json.text c.tree

end Context

namespace Event

/-- An attribute as a field of events; the version has a default there. -/
def attributeField (f : Field Node Context) : Field Node Event where
  name := f.name
  required := f.required && f.name != "specversion"
  read n e := return { e with toContext := ← f.read n e.toContext }

def schema : Schema Node Event where
  name := "CloudEvent"
  fields := Context.attributes.map attributeField ++
    [⟨"data", false, fun n e =>
      return { e with data := ← n.asOptional (Node.asTree (nestingLimit - 1)) }⟩]
  other name n e := return e.withExtension name (← n.asTree (nestingLimit - 1))

def ofNode (n : Node) : Except Problem Event := n.asObject schema {}

/-- Reads an event. -/
def read (s : String) : Except Problem Event := readTyped ofNode s

def tree (e : Event) : Tree :=
  .object (e.attributeMembers ++ (e.data.map fun t => ("data", t)).toList ++ e.extensions)

def text (e : Event) : String := Json.text e.tree

end Event

end EventPipeline
