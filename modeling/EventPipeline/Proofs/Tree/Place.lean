import EventPipeline.Tree.Access

/-!
Putting a node into a tree at the end of some steps, whatever stands there (`place`): containers
that are missing on the way are made, and a node of another kind gives way to one. Main statements:
what was put is read back (`read?_place_self`); beside the steps everything stays, but for the null
slots that a longer array comes with (`read?_place_of_beside`); and nodes are put at two places
beside each other in any order (`place_comm`).
-/

namespace EventPipeline

namespace Path.Step

/-- Whether a step leads to a member of an object. -/
def isKey : Step → Bool
  | .key _ => true
  | .index _ => false

/-- Two steps lead to different children of one container. -/
inductive Beside : Step → Step → Prop where
  | key {name other : String} : name ≠ other → Beside (.key name) (.key other)
  | index {i j : Nat} : i ≠ j → Beside (.index i) (.index j)

/-- Whether a step leads to an element that stands before the one that another step leads to. -/
def isBefore : Step → Step → Bool
  | .index i, .index j => decide (i < j)
  | _, _ => false

theorem Beside.symm {s r : Step} (h : s.Beside r) : r.Beside s := by
  cases h with
  | key h => exact .key h.symm
  | index h => exact .index h.symm

end Path.Step

namespace Tree

open EventPipeline.Path (Step)

/-- The elements of an array; every other tree counts as an empty array. -/
def itemsOrNone : Tree → List Tree
  | .array items => items
  | _ => []

/-- The child that a step leads to, null where there is none. -/
def childOrNull (t : Tree) (step : Step) : Tree := (t.child? step).getD .null

/-- A list with an element at a position; positions that are missing before it are null. -/
def putItem (items : List Tree) (i : Nat) (new : Tree) : List Tree :=
  (items ++ List.replicate (i + 1 - items.length) Tree.null).set i new

/-- A container with a child at a step, made of the container there if it is of the right kind. -/
def putChild (t new : Tree) : Step → Tree
  | .key name => .object (Keyed.insert name new t.membersOrNone)
  | .index i => .array (putItem t.itemsOrNone i new)

/-- The tree with a node at the end of the steps. -/
def place (t node : Tree) : List Step → Tree
  | [] => node
  | step :: rest => t.putChild ((t.childOrNull step).place node rest) step

section Children

variable {s r : Step}

theorem child?_key (t : Tree) (name : String) :
    t.child? (.key name) = Keyed.get? name t.membersOrNone := by
  cases t <;> rfl

theorem child?_index (t : Tree) (i : Nat) : t.child? (.index i) = t.itemsOrNone[i]? := by
  cases t <;> rfl

@[simp] theorem childOrNull_null (s : Step) : Tree.null.childOrNull s = .null := by
  cases s <;> rfl

@[simp] theorem putItem_nil_succ (i : Nat) (new : Tree) :
    putItem [] (i + 1) new = .null :: putItem [] i new := by
  simp [putItem, List.replicate_succ]

@[simp] theorem putItem_cons_succ (slot : Tree) (slots : List Tree) (i : Nat) (new : Tree) :
    putItem (slot :: slots) (i + 1) new = slot :: putItem slots i new := by
  simp [putItem]

theorem putItem_nil (i : Nat) (new : Tree) :
    putItem [] i new = List.replicate i .null ++ [new] := by
  induction i with
  | zero => rfl
  | succ i ih => rw [putItem_nil_succ, ih, List.replicate_succ, List.cons_append]

theorem getElem?_putItem (items : List Tree) (i j : Nat) (new : Tree) :
    (putItem items i new)[j]? =
      if j = i then some new else if j < i then some (items[j]?.getD .null) else items[j]? := by
  rw [putItem, List.getElem?_set]
  grind

theorem putItem_putItem_self (items : List Tree) (i : Nat) (first second : Tree) :
    putItem (putItem items i first) i second = putItem items i second := by
  refine List.ext_getElem? fun j => ?_
  simp only [getElem?_putItem]
  grind

theorem putItem_comm (items : List Tree) {i j : Nat} (h : i ≠ j) (x y : Tree) :
    putItem (putItem items i x) j y = putItem (putItem items j y) i x := by
  refine List.ext_getElem? fun k => ?_
  simp only [getElem?_putItem]
  grind

theorem child?_putChild_self (t c : Tree) (s : Step) : (t.putChild c s).child? s = some c := by
  cases s with
  | key name => exact Keyed.get?_insert_self name c _
  | index i =>
    rw [child?_index, putChild, itemsOrNone, getElem?_putItem, if_pos rfl]

@[simp] theorem childOrNull_putChild_self (t c : Tree) (s : Step) :
    (t.putChild c s).childOrNull s = c := by
  rw [childOrNull, child?_putChild_self, Option.getD_some]

/-- A child that is put leaves the others; array slots that become necessary before it are null. -/
theorem child?_putChild_of_beside (h : s.Beside r) (t c : Tree) :
    (t.putChild c s).child? r = if r.isBefore s then some (t.childOrNull r) else t.child? r := by
  cases h with
  | @key name other h =>
    rw [putChild, child?_key, child?_key]
    exact Keyed.get?_insert_of_ne h.symm c _
  | @index i j h =>
    rw [putChild, childOrNull, child?_index, child?_index, itemsOrNone, getElem?_putItem,
      if_neg h.symm]
    simp only [Step.isBefore, decide_eq_true_eq]

theorem childOrNull_putChild_of_beside (h : s.Beside r) (t c : Tree) :
    (t.putChild c s).childOrNull r = t.childOrNull r := by
  rw [childOrNull, child?_putChild_of_beside h]
  split <;> rfl

/-- A container has children of its own kind only. -/
theorem child?_putChild_of_isKey_ne (h : s.isKey ≠ r.isKey) (t c : Tree) :
    (t.putChild c s).child? r = none := by
  cases s <;> cases r
  case key.index | index.key => rfl
  all_goals exact absurd rfl h

theorem putChild_putChild_self (t c d : Tree) (s : Step) :
    (t.putChild c s).putChild d s = t.putChild d s := by
  cases s with
  | key name => exact congrArg Tree.object (Keyed.insert_insert_self name c d _)
  | index i => exact congrArg Tree.array (putItem_putItem_self _ i c d)

theorem putChild_comm (h : s.Beside r) (t c d : Tree) :
    (t.putChild c s).putChild d r = (t.putChild d r).putChild c s := by
  cases h with
  | key h => exact congrArg Tree.object (Keyed.insert_comm h.symm d c _)
  | index h => exact congrArg Tree.array (putItem_comm _ h c d)

end Children

section Reading

variable {common ps qs : List Step} {s r : Step}

theorem read?_null {steps : List Step} (h : steps ≠ []) : Tree.null.read? steps = none := by
  cases steps with
  | nil => exact absurd rfl h
  | cons s steps => cases s <;> rfl

/-- Below the root, a null in place of what is missing makes no difference to a reader. -/
theorem read?_childOrNull (t : Tree) (s : Step) {steps : List Step} (h : steps ≠ []) :
    (t.childOrNull s).read? steps = t.read? (s :: steps) := by
  rw [childOrNull, read?]
  cases t.child? s with
  | none => exact read?_null h
  | some child => rfl

/-- The node at the end of the steps, null where there is none. -/
def nodeOrNull (t : Tree) (steps : List Step) : Tree := (t.read? steps).getD .null

@[simp] theorem nodeOrNull_nil (t : Tree) : t.nodeOrNull [] = t := rfl

@[simp] theorem nodeOrNull_cons (t : Tree) (s : Step) (steps : List Step) :
    t.nodeOrNull (s :: steps) = (t.childOrNull s).nodeOrNull steps := by
  cases steps with
  | nil =>
    rw [nodeOrNull_nil, nodeOrNull, read?, childOrNull]
    cases t.child? s <;> rfl
  | cons r steps => rw [nodeOrNull, nodeOrNull, read?_childOrNull t s (List.cons_ne_nil r steps)]

theorem read?_place_self (t node : Tree) (steps : List Step) :
    (t.place node steps).read? steps = some node := by
  induction steps generalizing t with
  | nil => rfl
  | cons s steps ih => rw [place, read?, child?_putChild_self, Option.bind_some, ih]

/-- A common first step leads to the same question about the child. -/
theorem read?_place_cons (t node : Tree) (s : Step) (ps qs : List Step) :
    (t.place node (s :: ps)).read? (s :: qs) = ((t.childOrNull s).place node ps).read? qs := by
  rw [place, read?, child?_putChild_self, Option.bind_some]

/-- Where the way turns off beside the place, a reader finds what was there, or one of the null
slots that now precede the place. -/
theorem read?_place_of_beside (h : s.Beside r) (t node : Tree) :
    (t.place node (common ++ s :: ps)).read? (common ++ r :: qs) =
      if r.isBefore s && qs.isEmpty then some (t.nodeOrNull (common ++ r :: qs))
      else t.read? (common ++ r :: qs) := by
  induction common generalizing t with
  | nil =>
    simp only [List.nil_append, place, nodeOrNull_cons]
    rw [read?, child?_putChild_of_beside h]
    -- Below one of the new null slots nothing is found, as nothing was before.
    cases hb : r.isBefore s with
    | false => rfl
    | true =>
      cases qs with
      | nil => rfl
      | cons q qs => exact read?_childOrNull t r (List.cons_ne_nil q qs)
  | cons c common ih =>
    have hne : common ++ r :: qs ≠ [] := by simp
    simp only [List.cons_append, read?_place_cons, ih, nodeOrNull_cons, read?_childOrNull t c hne]

/-- Where the way asks for a child of another kind, nothing is left. -/
theorem read?_place_of_isKey_ne (h : s.isKey ≠ r.isKey) (t node : Tree) :
    (t.place node (common ++ s :: ps)).read? (common ++ r :: qs) = none := by
  induction common generalizing t with
  | nil =>
    simp only [List.nil_append, place]
    rw [read?, child?_putChild_of_isKey_ne h, Option.bind_none]
  | cons c common ih => simp only [List.cons_append, read?_place_cons, ih]

theorem nodeOrNull_place_of_beside (h : s.Beside r) (t node : Tree) :
    (t.place node (common ++ s :: ps)).nodeOrNull (common ++ r :: qs) =
      t.nodeOrNull (common ++ r :: qs) := by
  rw [nodeOrNull, read?_place_of_beside h]
  split <;> rfl

/-- Nodes are put at places beside each other in any order. -/
theorem place_comm (h : s.Beside r) (t a b : Tree) :
    (t.place a (common ++ s :: ps)).place b (common ++ r :: qs) =
      (t.place b (common ++ r :: qs)).place a (common ++ s :: ps) := by
  induction common generalizing t with
  | nil =>
    simp only [List.nil_append, place, childOrNull_putChild_of_beside h,
      childOrNull_putChild_of_beside h.symm]
    exact putChild_comm h t _ _
  | cons c common ih =>
    simp only [List.cons_append, place, childOrNull_putChild_self, putChild_putChild_self, ih]

end Reading

end Tree

end EventPipeline
