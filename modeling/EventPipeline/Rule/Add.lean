import EventPipeline.Error
import EventPipeline.Work
import EventPipeline.Template
import EventPipeline.Transform.Basic
import EventPipeline.Tree.Merge

/-!
The operation `add`: fills the event's variables into a template and writes the result at a path.
-/

namespace EventPipeline

/-- The value of an event's variable; a null variable is undefined, and so is the empty name. -/
def resolve (event name : String) : Work (Option Tree) :=
  if name = "" then .done none
  else .ask (.get event name) fun value => .done (value.filter fun t => !t.isNull)

structure Add where
  path : Path
  template : String
deriving DecidableEq, Repr

namespace Add

def ofSpec (spec : PathSpec) : Except Error Add := do
  let path := Path.parse spec.key spec.separator
  path.ensureWritable
  return { path, template := spec.value }

/-- The order in which variables are filled in: longer names first, then by name. -/
def fillsBefore (a b : String) : Bool :=
  b.utf8ByteSize < a.utf8ByteSize || (a.utf8ByteSize == b.utf8ByteSize && a ≤ b)

/-- Asks for the values of an event's variables. -/
def resolveAll (event : String) : List String → Work (List Template.Variable)
  | [] => .done []
  | name :: names =>
    (resolve event name).bind fun value =>
      (resolveAll event names).bind fun rest => .done (⟨name, value⟩ :: rest)

/-- The value that is written for an event. -/
def compose (a : Add) (event : String) : Work Tree :=
  .ask (.keys event) fun names =>
    (resolveAll event (names.mergeSort fillsBefore)).bind fun vars =>
      .done (Template.interpolate a.template vars)

def transform (a : Add) (event : String) (t : Tree) : Work Tree :=
  (a.compose event).bind fun value => .done (t.assign a.path.steps value)

end Add

end EventPipeline
