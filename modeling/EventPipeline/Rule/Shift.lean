import EventPipeline.Rule.Add
import EventPipeline.Tree.Access
import EventPipeline.Tree.Filter

/-!
The operation `shift`: takes the node at one path out of the tree and writes it at another.
-/

namespace EventPipeline

structure Shift where
  source : Path
  target : Path
  /-- What the node has to match, or the name of a variable that it has to equal; the empty text
  lets every node pass. -/
  value : String
deriving DecidableEq, Repr

namespace Shift

/-- The key holds both paths, with a colon between them. -/
def ofSpec (spec : PathSpec) : Except Error Shift :=
  match Text.split [':'] spec.key.toList with
  | [source, target] => do
    let target := Path.parse (String.ofList target) spec.separator
    target.ensureWritable
    return { source := Path.parse (String.ofList source) spec.separator, target,
             value := spec.value }
  | _ => .error (.malformedShiftKey spec.key)

/-- Whether a node may be moved. -/
def allows (s : Shift) (event : String) (node : Tree) : Work Bool :=
  if s.value = "" then .done true
  else (resolve event s.value).bind fun
    | some value => .done (value.equal node)
    | none => .done (node.matchesFilter s.value)

/-- A node that is not there, or may not be moved, leaves the tree as it is. -/
def transform (s : Shift) (event : String) (t : Tree) : Work Tree :=
  match t.extract s.source.steps with
  | (_, none) => .done t
  | (remaining, some node) =>
    (s.allows event node).bind fun allowed =>
      .done (if allowed then remaining.assign s.target.steps node else t)

end Shift

end EventPipeline
