import EventPipeline.Operation
import EventPipeline.Path.Text

/-!
Transformations as they are configured: an operation, and the paths that it is to be applied to.
-/

namespace EventPipeline

/-- A key and a value, which mean what the operation makes of them. -/
structure PathSpec where
  key : String := ""
  value : String := ""
  /-- The text between the segments of the paths in the key and the value. -/
  separator : String := Path.defaultSeparator
deriving DecidableEq, Repr, Inhabited

/-- The same key and value with another separator; the empty text is none. -/
def PathSpec.withSeparator (spec : PathSpec) (separator : String) : PathSpec :=
  if separator = "" then spec else { spec with separator }

structure Transform where
  operation : Operation
  paths : List PathSpec := []
deriving DecidableEq, Repr, Inhabited

end EventPipeline
