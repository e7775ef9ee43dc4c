import EventPipeline.Path.Basic
import EventPipeline.Tree.Basic

/-!
Writing into a tree. `encode` builds the smallest tree that has a value at a path, `merge` lays
one tree over another, and `assign` writes a value at a path by laying its encoding over the tree.
-/

namespace EventPipeline.Tree

open EventPipeline.Path (Step)

mutual
/--
Lays `layer` on top of `base`. A scalar covers everything. An array covers an array slot by slot
and everything else as a whole. An object adds its members to those of an object, and covers
everything else; the value of its member with the empty name is laid over the whole object.
-/
def merge (base : Tree) : (layer : Tree) → Tree
  | .array items =>
    match base with
    | .array slots => .array (mergeItems [] slots items)
    | _ => .array items
  | .object members => mergeMembers (.object base.membersOrNone) members
  | scalar => scalar

/--
Lays the slots of an array over those of another; `done` holds the finished slots, last one first.
A null slot is padding and covers nothing.
-/
def mergeItems (done : List Tree) (slots : List Tree) : List Tree → List Tree
  | [] => done.reverse ++ slots
  | item :: items =>
    match slots with
    | [] => mergeItems ((if item.isNull then .null else merge .null item) :: done) [] items
    | slot :: slots =>
      mergeItems ((if item.isNull then slot else merge slot item) :: done) slots items

/-- Lays members over a tree, one after the other. -/
def mergeMembers (base : Tree) : List (String × Tree) → Tree
  | [] => base
  | (name, value) :: rest =>
    if name = "" then mergeMembers (merge base value) rest
    else
      let members := base.membersOrNone
      let previous := (Keyed.get? name members).getD .null
      mergeMembers (.object (Keyed.insert name (merge previous value) members)) rest
end

/-- The smallest tree with the value at the end of the steps; array slots before it are null. -/
def encode (steps : List Step) (value : Tree) : Tree :=
  steps.foldr
    (fun step inner =>
      match step with
      | .key name => .object [(name, inner)]
      | .index i => .array (List.replicate i .null ++ [inner]))
    value

/-- Writes a value at the end of the steps. -/
def assign (t : Tree) (steps : List Step) (value : Tree) : Tree := merge t (encode steps value)

@[simp] theorem encode_nil (value : Tree) : encode [] value = value := rfl

@[simp] theorem encode_key (name : String) (steps : List Step) (value : Tree) :
    encode (.key name :: steps) value = .object [(name, encode steps value)] := rfl

@[simp] theorem encode_index (i : Nat) (steps : List Step) (value : Tree) :
    encode (.index i :: steps) value =
      .array (List.replicate i .null ++ [encode steps value]) := rfl

/-- The finished slots come first. -/
theorem mergeItems_done (done slots items : List Tree) :
    mergeItems done slots items = done.reverse ++ mergeItems [] slots items := by
  induction items generalizing done slots with
  | nil => simp [mergeItems]
  | cons item items ih =>
    cases slots with
    | nil =>
      rw [mergeItems, ih, mergeItems, ih [_]]
      simp
    | cons slot slots =>
      rw [mergeItems, ih, mergeItems, ih [_]]
      simp

end EventPipeline.Tree
