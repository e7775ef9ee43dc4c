import EventPipeline.Work
import EventPipeline.Transform.Basic
import EventPipeline.Tree.Filter

/-!
The operation `delete`: removes every node that has a given path and matches a given filter. Paths
are compared as texts (*trails*), with the separator of the configured path.
-/

namespace EventPipeline

structure Delete where
  /-- The trail of the nodes to remove; the empty text stands for every trail. -/
  key : String
  separator : String
  /-- The filter, or the name of a variable that holds it; the empty text matches every node. -/
  value : String
deriving DecidableEq, Repr

namespace Delete

def ofSpec (spec : PathSpec) : Delete :=
  { key := spec.key, separator := spec.separator, value := spec.value }

/-- The trail of a member. -/
def memberTrail (separator trail name : String) : String :=
  if trail = "" then name else trail ++ separator ++ name

/-- The trail of an element. -/
def elementTrail (trail : String) (i : Nat) : String := trail ++ "[" ++ toString i ++ "]"

/-- Whether a node with the given trail is to be removed. -/
def selects (key : String) (filter : Option String) (trail : String) (t : Tree) : Bool :=
  (key == "" || key == trail) && filter.all t.matchesFilter

mutual
/-- The tree without the nodes to remove; `none` if its root is one of them. -/
def prune (key separator : String) (filter : Option String) (trail : String) : Tree → Option Tree
  | .array items =>
    if selects key filter trail (.array items) then none
    else some (.array (pruneItems key separator filter trail 0 [] items))
  | .object members =>
    if selects key filter trail (.object members) then none
    else some (.object (pruneMembers key separator filter trail [] members))
  | t => if selects key filter trail t then none else some t

/-- Prunes the elements from number `i` on; `kept` holds those before, last one first. -/
def pruneItems (key separator : String) (filter : Option String) (trail : String) (i : Nat)
    (kept : List Tree) : List Tree → List Tree
  | [] => kept.reverse
  | t :: ts =>
    match prune key separator filter (elementTrail trail i) t with
    | some t => pruneItems key separator filter trail (i + 1) (t :: kept) ts
    | none => pruneItems key separator filter trail (i + 1) kept ts

/-- Prunes members; `kept` holds those before, last one first. -/
def pruneMembers (key separator : String) (filter : Option String) (trail : String)
    (kept : List (String × Tree)) : List (String × Tree) → List (String × Tree)
  | [] => kept.reverse
  | (name, t) :: ms =>
    match prune key separator filter (memberTrail separator trail name) t with
    | some t => pruneMembers key separator filter trail ((name, t) :: kept) ms
    | none => pruneMembers key separator filter trail kept ms
end

/-- The filter for an event: a variable that holds a text stands for that text. -/
def filterFor (d : Delete) (event : String) : Work (Option String) :=
  if d.value = "" then .done none
  else .ask (.get event d.value) fun
    | some (.text s) => .done (some s)
    | _ => .done (some d.value)

/-- Without the root, null remains. -/
def transform (d : Delete) (event : String) (t : Tree) : Work Tree :=
  (d.filterFor event).bind fun filter =>
    .done ((prune d.key d.separator filter "" t).getD .null)

end Delete

end EventPipeline
