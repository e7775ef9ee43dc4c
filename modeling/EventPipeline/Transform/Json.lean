import EventPipeline.Json.Typed
import EventPipeline.Json.Writer
import EventPipeline.Transform.Schema

/-!
Transformations in JSON texts, where they are written with their fields in order.
-/

namespace EventPipeline

open Json

namespace PathSpec

/-- Reads a path entry. -/
def read (s : String) : Except Problem PathSpec := readTyped (ofUntyped · : Node → _) s

def tree (spec : PathSpec) : Tree :=
  .object [("key", .text spec.key), ("value", .text spec.value),
    ("separator", .text spec.separator)]

/-- The text of a path entry. -/
def text (spec : PathSpec) : String := Json.text spec.tree

end PathSpec

namespace Transform

/-- Reads a list of transformations. -/
def readList (s : String) : Except Problem (List Transform) :=
  readTyped (Node.asList ofUntyped) s

def tree (t : Transform) : Tree :=
  .object [("operation", .text t.operation.name), ("paths", .array (t.paths.map PathSpec.tree))]

/-- The text of a transformation. -/
def text (t : Transform) : String := Json.text t.tree

/-- The text of a list of transformations. -/
def listText (ts : List Transform) : String := Json.text (.array (ts.map tree))

end Transform

end EventPipeline
