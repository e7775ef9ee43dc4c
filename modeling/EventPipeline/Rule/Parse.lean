import EventPipeline.Error
import EventPipeline.Json.Reader
import EventPipeline.Transform.Basic
import EventPipeline.Tree.Access

/-!
The operation `parse`: puts the tree that a text holds in place of the text.
-/

namespace EventPipeline

/-- The formats that a text can be parsed from. -/
inductive Format where
  | json
deriving DecidableEq, Repr

def Format.name : Format → String
  | .json => "json"

/-- The case of ASCII letters does not matter. -/
def Format.ofName (name : String) : Except Error Format :=
  if name.toList.map Char.toLower = Format.json.name.toList then .ok .json
  else .error (.unsupportedFormat name)

structure Parse where
  path : Path
  format : Format
deriving DecidableEq, Repr

namespace Parse

def ofSpec (spec : PathSpec) : Except Error Parse := do
  let format ← Format.ofName spec.value
  return { path := Path.parse spec.key spec.separator, format }

def fail (p : Parse) (fault : OperationFault) : Error := .operation .parse p.path.display fault

/-- The tree to put in place of a node. -/
def replacement (p : Parse) (node : Tree) : Except Error Tree :=
  match p.format, node with
  | .json, .text s =>
    match Json.read s with
    | .ok t => .ok t
    | .error problem => .error (p.fail (.badJson problem))
  | _, node => .error (p.fail (.notAText node.kindName))

/-- A path that does not resolve leaves the tree as it is. -/
def transform (p : Parse) (t : Tree) : Except Error Tree :=
  match t.slot? p.path.steps with
  | none => .ok t
  | some slot => slot.fill <$> p.replacement slot.node

end Parse

end EventPipeline
