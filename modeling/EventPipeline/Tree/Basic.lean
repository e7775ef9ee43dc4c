import EventPipeline.Binary64.Basic
import EventPipeline.Keyed

/-!
Trees of JSON values: the form in which contexts, payloads and variables are transformed. A tree
is *well formed* when every object in it lists its members in ascending order of their names; the
operations on trees keep that. Two comparisons run over the same recursion (`agree`): equality of
trees, and equality in which numbers are compared by value.
-/

namespace EventPipeline

/-- The integers of a JSON text: those of 64 bits, with or without sign. -/
structure Integer where
  value : Int
  lower : -0x8000_0000_0000_0000 ≤ value := by omega
  upper : value < 0x1_0000_0000_0000_0000 := by omega
deriving DecidableEq, Repr

namespace Integer

instance : Inhabited Integer := ⟨⟨0, by decide, by decide⟩⟩

/-- The integer of a given value, if 64 bits can hold it. -/
def ofInt? (value : Int) : Option Integer :=
  if h : -0x8000_0000_0000_0000 ≤ value ∧ value < 0x1_0000_0000_0000_0000 then
    some ⟨value, h.1, h.2⟩
  else none

@[simp] theorem ofInt?_value (n : Integer) : ofInt? n.value = some n := by
  simp only [ofInt?, dif_pos (And.intro n.lower n.upper)]

end Integer

/-- A number of a JSON text. An integer is never equal to a double. -/
inductive Number where
  | integer (n : Integer)
  | double (x : Binary64)
deriving DecidableEq, Inhabited, Repr

/-- Equality of numbers by value within each kind. -/
def Number.equal : Number → Number → Bool
  | .integer m, .integer n => m == n
  | .double x, .double y => x.equal y
  | _, _ => false

inductive Tree where
  | null
  | bool (b : Bool)
  | number (n : Number)
  | text (s : String)
  | array (items : List Tree)
  | object (members : List (String × Tree))
deriving Inhabited, Repr

namespace Tree

def isNull : Tree → Bool
  | .null => true
  | _ => false

def isContainer : Tree → Bool
  | .array _ => true
  | .object _ => true
  | _ => false

/-- The members of an object; every other tree counts as an empty object. -/
def membersOrNone : Tree → Keyed Tree
  | .object members => members
  | _ => []

/-- What a message calls a tree. -/
def kindName : Tree → String
  | .null => "null"
  | .bool _ => "boolean"
  | .number _ => "number"
  | .text _ => "string"
  | .array _ => "array"
  | .object _ => "object"

mutual
/-- Whether two trees have the same shape and texts, and numbers that `same` relates. -/
def agree (same : Number → Number → Bool) : Tree → Tree → Bool
  | .null, .null => true
  | .bool a, .bool b => a == b
  | .number m, .number n => same m n
  | .text s, .text t => s == t
  | .array xs, .array ys => agreeItems same xs ys
  | .object ms, .object ns => agreeMembers same ms ns
  | _, _ => false

def agreeItems (same : Number → Number → Bool) : List Tree → List Tree → Bool
  | [], [] => true
  | x :: xs, y :: ys => if agree same x y then agreeItems same xs ys else false
  | _, _ => false

def agreeMembers (same : Number → Number → Bool) :
    List (String × Tree) → List (String × Tree) → Bool
  | [], [] => true
  | (k, x) :: ms, (l, y) :: ns =>
    if k == l && agree same x y then agreeMembers same ms ns else false
  | _, _ => false
end

/-- Equality of trees with numbers compared by value; members are listed by name, so their order
in a text does not matter. -/
def equal (s t : Tree) : Bool := agree Number.equal s t

/-- Whether two trees are the same. -/
def same (s t : Tree) : Bool := agree (fun m n => decide (m = n)) s t

mutual
theorem eq_of_same (s t : Tree) (h : same s t = true) : s = t := by
  cases s with
  | array xs =>
    cases t with
    | array ys => exact congrArg _ (eq_of_sameItems xs ys (by simpa [same, agree] using h))
    | _ => simp [same, agree] at h
  | object ms =>
    cases t with
    | object ns => exact congrArg _ (eq_of_sameMembers ms ns (by simpa [same, agree] using h))
    | _ => simp [same, agree] at h
  | _ => cases t <;> simp_all [same, agree]

theorem eq_of_sameItems (xs ys : List Tree)
    (h : agreeItems (fun m n => decide (m = n)) xs ys = true) : xs = ys := by
  cases xs with
  | nil => cases ys <;> simp_all [agreeItems]
  | cons x xs =>
    cases ys with
    | nil => simp [agreeItems] at h
    | cons y ys =>
      rw [agreeItems] at h
      split at h
      · next hx => rw [eq_of_same x y hx, eq_of_sameItems xs ys h]
      · simp at h

theorem eq_of_sameMembers (ms ns : List (String × Tree))
    (h : agreeMembers (fun m n => decide (m = n)) ms ns = true) : ms = ns := by
  cases ms with
  | nil => cases ns <;> simp_all [agreeMembers]
  | cons m ms =>
    cases ns with
    | nil => simp [agreeMembers] at h
    | cons n ns =>
      obtain ⟨k, x⟩ := m
      obtain ⟨l, y⟩ := n
      rw [agreeMembers] at h
      split at h
      · next hx =>
        obtain ⟨hk, hx⟩ := Bool.and_eq_true_iff.mp hx
        rw [eq_of_beq hk, eq_of_same x y hx, eq_of_sameMembers ms ns h]
      · simp at h
end

mutual
theorem same_refl : (t : Tree) → same t t = true
  | .null => rfl
  | .bool _ => by simp [same, agree]
  | .number _ => by simp [same, agree]
  | .text _ => by simp [same, agree]
  | .array xs => by simpa [same, agree] using sameItems_refl xs
  | .object ms => by simpa [same, agree] using sameMembers_refl ms

theorem sameItems_refl : (xs : List Tree) →
    agreeItems (fun m n => decide (m = n)) xs xs = true
  | [] => rfl
  | x :: xs => by
    rw [agreeItems, show agree (fun m n => decide (m = n)) x x = true from same_refl x]
    simpa using sameItems_refl xs

theorem sameMembers_refl : (ms : List (String × Tree)) →
    agreeMembers (fun m n => decide (m = n)) ms ms = true
  | [] => rfl
  | (k, x) :: ms => by
    rw [agreeMembers, show agree (fun m n => decide (m = n)) x x = true from same_refl x]
    simpa using sameMembers_refl ms
end

theorem same_iff {s t : Tree} : same s t = true ↔ s = t :=
  ⟨eq_of_same s t, fun h => h ▸ same_refl s⟩

instance : DecidableEq Tree := fun s t => decidable_of_iff (same s t = true) same_iff

mutual
/-- Every object in the tree lists its members in ascending order of their names. -/
def WellFormed : Tree → Prop
  | .array items => ItemsWellFormed items
  | .object members => Keyed.Sorted members ∧ MembersWellFormed members
  | _ => True

def ItemsWellFormed : List Tree → Prop
  | [] => True
  | t :: ts => t.WellFormed ∧ ItemsWellFormed ts

def MembersWellFormed : List (String × Tree) → Prop
  | [] => True
  | (_, t) :: ms => t.WellFormed ∧ MembersWellFormed ms
end

theorem itemsWellFormed_iff {items : List Tree} :
    ItemsWellFormed items ↔ ∀ t ∈ items, t.WellFormed := by
  induction items with
  | nil => simp [ItemsWellFormed]
  | cons t items ih => simp [ItemsWellFormed, ih]

theorem membersWellFormed_iff {members : List (String × Tree)} :
    MembersWellFormed members ↔ ∀ m ∈ members, m.2.WellFormed := by
  induction members with
  | nil => simp [MembersWellFormed]
  | cons m members ih => simp [MembersWellFormed, ih]

mutual
/-- The nesting depth: 0 for a scalar, one more than the deepest child for a container. -/
def depth : Tree → Nat
  | .array items => 1 + itemsDepth items
  | .object members => 1 + membersDepth members
  | _ => 0

def itemsDepth : List Tree → Nat
  | [] => 0
  | t :: ts => max t.depth (itemsDepth ts)

def membersDepth : List (String × Tree) → Nat
  | [] => 0
  | (_, t) :: ms => max t.depth (membersDepth ms)
end

theorem depth_eq_zero {t : Tree} (h : t.isContainer = false) : t.depth = 0 := by
  cases t <;> first | rfl | cases h

theorem itemsDepth_le_iff {items : List Tree} {n : Nat} :
    itemsDepth items ≤ n ↔ ∀ t ∈ items, t.depth ≤ n := by
  induction items with
  | nil => simp [itemsDepth]
  | cons t items ih => rw [itemsDepth, Nat.max_le, ih, List.forall_mem_cons]

theorem membersDepth_le_iff {members : List (String × Tree)} {n : Nat} :
    membersDepth members ≤ n ↔ ∀ m ∈ members, m.2.depth ≤ n := by
  induction members with
  | nil => simp [membersDepth]
  | cons m members ih => rw [membersDepth, Nat.max_le, ih, List.forall_mem_cons]

end Tree

end EventPipeline
