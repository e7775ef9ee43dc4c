import EventPipeline.Error
import EventPipeline.Work
import EventPipeline.Transform.Basic
import EventPipeline.Tree.Access

/-!
The operation `store`: keeps the node at a path as a variable of the event.
-/

namespace EventPipeline

structure Store where
  variableName : String
  path : Path
deriving DecidableEq, Repr

namespace Store

def ofSpec (spec : PathSpec) : Except Error Store :=
  if spec.key = "" then .error (.config .unnamedVariable)
  else .ok { variableName := spec.key, path := Path.parse spec.value spec.separator }

/-- The tree stays as it is; where there is no node, null is kept. -/
def transform (s : Store) (event : String) (t : Tree) : Work Tree :=
  .ask (.set event s.variableName ((t.read? s.path.steps).getD .null)) fun _ => .done t

end Store

end EventPipeline
