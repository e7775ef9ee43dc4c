import EventPipeline.Binary64.Text
import EventPipeline.Tree.Basic

/-!
Comparing a scalar with a text, as the filters of operations do.
-/

namespace EventPipeline

/-- The text that a filter has to give for a number. -/
def Number.plainText : Number → String
  | .integer n => toString n.value
  | .double x => x.plainText

/-- Whether a filter matches a node: texts exactly, numbers and booleans by their plain form, and
nothing else ever. -/
def Tree.matchesFilter (t : Tree) (filter : String) : Bool :=
  match t with
  | .text s => s == filter
  | .number n => n.plainText == filter
  | .bool b => (if b then "true" else "false") == filter
  | _ => false

end EventPipeline
