import EventPipeline.Error
import EventPipeline.Instant.Basic
import EventPipeline.Text.Search
import EventPipeline.Tree.Basic

/-!
Events: a context of attributes and extensions, and a payload that is a tree. A context is *valid*
when an event may have it: it has the one supported version, no required attribute is empty, and
its extensions are scalars under names of lower-case letters and digits.
-/

namespace EventPipeline

/-- The attributes and extensions of an event. -/
structure Context where
  specversion : String := "1.0"
  id : String := ""
  source : String := ""
  type : String := ""
  datacontenttype : Option String := none
  dataschema : Option String := none
  subject : Option String := none
  time : Option Instant := none
  extensions : Keyed Tree := []
deriving DecidableEq

structure Event extends Context where
  data : Option Tree := none
deriving DecidableEq

namespace Context

/-- The only supported version. -/
def supportedVersion : String := "1.0"

/-- The content type of every event that is forwarded. -/
def jsonContentType : String := "application/json"

/-- The names that no extension may have. -/
def reservedNames : List String :=
  ["specversion", "id", "source", "type", "datacontenttype", "dataschema", "subject", "time",
    "data", "data_base64"]

def isNameChar (c : Char) : Bool := ('a' ≤ c && c ≤ 'z') || ('0' ≤ c && c ≤ '9')

/-- Whether an extension may have the name. -/
def isExtensionName (name : String) : Bool :=
  name != "" && name.toList.all isNameChar && !reservedNames.contains name

/-- What is wrong with an extension. -/
def extensionFault? (name : String) (value : Tree) : Option EventFault :=
  if !isExtensionName name then some (.badExtensionName name)
  else if value.isContainer then some (.nestedExtension name)
  else none

/-- The first thing that is wrong with a context. -/
def fault? (c : Context) : Option EventFault :=
  if c.specversion ≠ supportedVersion then some (.unsupportedVersion c.specversion)
  else if c.id = "" then some (.emptyAttribute "id")
  else if c.source = "" then some (.emptyAttribute "source")
  else if c.type = "" then some (.emptyAttribute "type")
  else c.extensions.findSome? fun (name, value) => extensionFault? name value

/-- Fails unless the context is valid. -/
def validate (c : Context) : Except Error Unit :=
  match c.fault? with
  | some fault => .error (.invalidEvent fault)
  | none => .ok ()

end Context

namespace Event

/-- An event with the required attributes, labelled as JSON. -/
def ofAttributes (id source type : String) : Event :=
  { id, source, type, datacontenttype := some Context.jsonContentType }

def withContentType (e : Event) (contentType : Option String) : Event :=
  { e with datacontenttype := contentType }

def withData (e : Event) (data : Tree) : Event := { e with data := some data }

def withExtension (e : Event) (name : String) (value : Tree) : Event :=
  { e with extensions := Keyed.insert name value e.extensions }

/-- Whether the payload may be transformed; an event without content type counts as JSON. -/
def hasJsonData (e : Event) : Bool := e.datacontenttype.all (Text.occurs Context.jsonContentType)

/-- The payload, null if there is none. -/
def payload (e : Event) : Tree := e.data.getD .null

/-- The event with a given context and payload. It is labelled as JSON, and null extensions are
left out. -/
def ofParts (c : Context) (data : Option Tree) : Except Error Event := do
  c.validate
  return { c with
    datacontenttype := some Context.jsonContentType
    extensions := c.extensions.filter fun (_, value) => !value.isNull
    data }

end Event

end EventPipeline
