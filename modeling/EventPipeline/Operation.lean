/-!
The five operations, and the two phases in which they run.
-/

namespace EventPipeline

/-- When an operation runs: everything of the first phase before everything of the second. -/
inductive Phase where
  | init
  | main
deriving DecidableEq, Repr

def Phase.name : Phase → String
  | .init => "init"
  | .main => "main"

inductive Operation where
  /-- Writes a value. -/
  | add
  /-- Removes nodes. -/
  | delete
  /-- Moves a value. -/
  | shift
  /-- Keeps a value as a variable. -/
  | store
  /-- Reads a text as a tree. -/
  | parse
deriving DecidableEq, Repr, Inhabited

namespace Operation

def all : List Operation := [.add, .delete, .shift, .store, .parse]

def name : Operation → String
  | .add => "add"
  | .delete => "delete"
  | .shift => "shift"
  | .store => "store"
  | .parse => "parse"

/-- Variables are filled and texts read before anything is written. -/
def phase : Operation → Phase
  | .store | .parse => .init
  | .add | .delete | .shift => .main

def ofName? (name : String) : Option Operation := all.find? fun op => op.name == name

@[simp] theorem ofName?_name (op : Operation) : ofName? op.name = some op := by
  cases op <;> decide

end Operation

end EventPipeline
