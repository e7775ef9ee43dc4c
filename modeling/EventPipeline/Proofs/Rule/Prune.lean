import Mathlib.Data.Nat.Count
import EventPipeline.Proofs.Tree.Place
import EventPipeline.Rule.Delete

/-!
Pruning one level of a tree. A container that stays keeps the children that are not selected, each
pruned in turn: members under their names, elements at indices *lowered* by the number of selected
elements before them. Main statement: what a step finds in the pruned container comes from exactly
one child of the container itself (`child?_pruned_iff`, `lowerStep_injective`).
-/

namespace EventPipeline

section Kept

variable {α β : Type} {f : α → Option β} {l : List α}

/-- What a filter keeps of a list comes from an element, and stands behind what it keeps of the
elements before that one. -/
theorem getElem?_filterMap_iff {k : Nat} {b : β} :
    (l.filterMap f)[k]? = some b ↔
      ∃ i, l[i]?.bind f = some b ∧ Nat.count (fun j => (l[j]?.bind f).isSome) i = k := by
  induction l generalizing k with
  | nil => simp
  | cons a l ih =>
    have hcount : ∀ i, Nat.count (fun j => ((a :: l)[j]?.bind f).isSome) (i + 1) =
        Nat.count (fun j => (l[j]?.bind f).isSome) i + if (f a).isSome then 1 else 0 :=
      fun i => Nat.count_succ' _ i
    constructor
    · intro h
      cases ha : f a with
      | none =>
        rw [List.filterMap_cons_none ha] at h
        obtain ⟨i, hi, hk⟩ := ih.mp h
        exact ⟨i + 1, hi, by rw [hcount, hk, ha]; rfl⟩
      | some c =>
        rw [List.filterMap_cons_some ha] at h
        cases k with
        | zero => exact ⟨0, ha.trans h, rfl⟩
        | succ k =>
          obtain ⟨i, hi, hk⟩ := ih.mp h
          exact ⟨i + 1, hi, by rw [hcount, hk, ha]; rfl⟩
    · rintro ⟨i, hi, rfl⟩
      cases i with
      | zero =>
        have ha : f a = some b := hi
        rw [List.filterMap_cons_some ha]
        rfl
      | succ i =>
        have hrest := ih.mpr ⟨i, hi, rfl⟩
        rw [hcount]
        cases ha : f a with
        | none => rwa [List.filterMap_cons_none ha]
        | some c => rwa [List.filterMap_cons_some ha]

/-- Below a number, what has a property and what does not make up all numbers. -/
theorem count_add_count {p q : Nat → Prop} [DecidablePred p] [DecidablePred q] {n : Nat}
    (h : ∀ j < n, q j ↔ ¬ p j) : Nat.count p n + Nat.count q n = n := by
  induction n with
  | zero => rfl
  | succ n ih =>
    have hn := ih fun j hj => h j (Nat.lt_succ_of_lt hj)
    have hq := h n (Nat.lt_succ_self n)
    rw [Nat.count_succ, Nat.count_succ]
    by_cases hp : p n
    · rw [if_pos hp, if_neg fun hq' => hq.mp hq' hp]
      omega
    · rw [if_neg hp, if_pos (hq.mpr hp)]
      omega

theorem Keyed.sorted_filterMap {m : Keyed α} (hm : Sorted m) (g : String → α → Option β) :
    Sorted (m.filterMap fun e => (g e.1 e.2).map (e.1, ·)) := by
  refine List.Pairwise.filterMap _ (fun e e' hlt b hb b' hb' => ?_) hm
  obtain ⟨x, -, rfl⟩ := Option.map_eq_some_iff.mp hb
  obtain ⟨x', -, rfl⟩ := Option.map_eq_some_iff.mp hb'
  exact hlt

theorem Keyed.get?_filterMap {g : String → α → Option β} {m : Keyed α} (hm : Sorted m)
    (name : String) :
    get? name (m.filterMap fun e => (g e.1 e.2).map (e.1, ·)) = (get? name m).bind (g name) := by
  induction m with
  | nil => rfl
  | cons e m ih =>
    obtain ⟨k, a⟩ := e
    obtain ⟨hk, hm⟩ := List.pairwise_cons.mp hm
    rw [get?]
    split
    · next h =>
      subst h
      -- No other entry has the name of the first one.
      have hnone : get? k m = none := get?_eq_none fun e he => (String.ne_of_lt (hk e he)).symm
      cases hg : g k a with
      | none =>
        rw [List.filterMap_cons_none (by rw [hg]; rfl), ih hm, hnone, Option.bind_some, hg]
        rfl
      | some b =>
        rw [List.filterMap_cons_some (by rw [hg]; rfl), get?, if_pos rfl, Option.bind_some, hg]
    · next h =>
      rw [← ih hm]
      cases hg : g k a with
      | none => rw [List.filterMap_cons_none (by rw [hg]; rfl)]
      | some b => rw [List.filterMap_cons_some (by rw [hg]; rfl), get?, if_neg h]

end Kept

namespace Delete

open EventPipeline.Path (Step)

/-- The trail of the child that a step leads to, given the trail of its parent. -/
def stepTrail (separator trail : String) : Step → String
  | .key name => memberTrail separator trail name
  | .index i => elementTrail trail i

/-- The trail of the node at a position below a node with the given trail. -/
def trailOf (separator trail : String) (position : List Step) : String :=
  position.foldl (stepTrail separator) trail

/-- What a delete removes from a tree: nodes with a trail, with the filter in force. -/
structure Selection where
  key : String
  separator : String
  filter : Option String
deriving DecidableEq, Repr

namespace Selection

variable (c : Selection)

def prune (trail : String) (t : Tree) : Option Tree :=
  Delete.prune c.key c.separator c.filter trail t

def selects (trail : String) (t : Tree) : Bool := Delete.selects c.key c.filter trail t

/-- Whether the node at a position below a node with the given trail is selected. -/
def hits (trail : String) (t : Tree) (position : List Step) : Bool :=
  (t.read? position).any (c.selects (trailOf c.separator trail position))

/-- The step that leads to a child once its siblings are pruned. -/
def lowerStep (trail : String) (t : Tree) : Step → Step
  | .key name => .key name
  | .index i => .index (i - Nat.count (fun j => c.hits trail t [.index j]) i)

/-- The node with its children pruned. -/
def pruned (trail : String) : Tree → Tree
  | .array items =>
    .array (items.zipIdx.filterMap fun e => c.prune (elementTrail trail e.2) e.1)
  | .object members =>
    .object (members.filterMap fun e =>
      (c.prune (memberTrail c.separator trail e.1) e.2).map (e.1, ·))
  | t => t

variable {c} {trail : String} {t : Tree}

theorem pruneItems_eq (items kept : List Tree) (i : Nat) :
    pruneItems c.key c.separator c.filter trail i kept items =
      kept.reverse ++
        (items.zipIdx i).filterMap fun e => c.prune (elementTrail trail e.2) e.1 := by
  induction items generalizing i kept with
  | nil => simp [pruneItems]
  | cons t items ih =>
    rw [pruneItems, List.zipIdx_cons, List.filterMap_cons, prune]
    split
    · next x hx =>
      simp only [hx]
      rw [ih, List.reverse_cons, List.append_assoc]
      rfl
    · next hx =>
      simp only [hx]
      rw [ih]

theorem pruneMembers_eq (members kept : List (String × Tree)) :
    pruneMembers c.key c.separator c.filter trail kept members =
      kept.reverse ++ members.filterMap fun e =>
        (c.prune (memberTrail c.separator trail e.1) e.2).map (e.1, ·) := by
  induction members generalizing kept with
  | nil => simp [pruneMembers]
  | cons e members ih =>
    rw [pruneMembers, List.filterMap_cons, prune]
    split
    · next x hx =>
      simp only [hx]
      rw [ih, List.reverse_cons, List.append_assoc]
      rfl
    · next hx =>
      simp only [hx]
      rw [ih]
      rfl

/-- A node that is not selected stays, with its children pruned. -/
theorem prune_eq (t : Tree) :
    c.prune trail t = if c.hits trail t [] then none else some (c.pruned trail t) := by
  cases t with
  | array items =>
    rw [prune, Delete.prune, pruneItems_eq]
    rfl
  | object members =>
    rw [prune, Delete.prune, pruneMembers_eq]
    rfl
  | _ =>
    rw [prune, Delete.prune]
    · rfl
    all_goals
      intro _ h
      cases h

theorem prune_eq_some_iff {x : Tree} :
    c.prune trail t = some x ↔ ¬ c.hits trail t [] ∧ c.pruned trail t = x := by
  rw [prune_eq]
  cases c.hits trail t [] <;> simp

/-- What holds between every scalar and itself, and between containers when it holds between each
child that is kept and the child that it comes from, holds between a tree and what is kept of it. -/
theorem prune_induct {R : Tree → Tree → Prop} (scalar : ∀ t, t.isContainer = false → R t t)
    (array : ∀ items left : List Tree, left.length ≤ items.length →
      (∀ x ∈ left, ∃ t ∈ items, R t x) → R (.array items) (.array left))
    (object : ∀ members left : Keyed Tree, (Keyed.Sorted members → Keyed.Sorted left) →
      (∀ e ∈ left, ∃ m ∈ members, R m.2 e.2) → R (.object members) (.object left))
    {x : Tree} (h : c.prune trail t = some x) : R t x := by
  induction hsize : sizeOf t using Nat.strong_induction_on generalizing trail t x with
  | _ n ih =>
    subst hsize
    obtain ⟨-, rfl⟩ := prune_eq_some_iff.mp h
    cases t with
    | array items =>
      refine array items _ ?_ fun x hx => ?_
      · exact (List.length_filterMap_le _ _).trans_eq List.length_zipIdx
      · obtain ⟨e, he, hprune⟩ := List.mem_filterMap.mp hx
        have hitem : e.1 ∈ items := List.fst_mem_of_mem_zipIdx he
        have hlt := List.sizeOf_lt_of_mem hitem
        refine ⟨e.1, hitem, ih _ ?_ hprune rfl⟩
        rw [Tree.array.sizeOf_spec]
        omega
    | object members =>
      refine object members _ (fun hm => Keyed.sorted_filterMap hm fun name =>
        c.prune (memberTrail c.separator trail name)) fun e he => ?_
      obtain ⟨⟨name, child⟩, hm, he⟩ := List.mem_filterMap.mp he
      obtain ⟨y, hprune, rfl⟩ := Option.map_eq_some_iff.mp he
      have hlt := List.sizeOf_lt_of_mem hm
      refine ⟨(name, child), hm, ih (sizeOf child) ?_ hprune rfl⟩
      rw [Prod.mk.sizeOf_spec] at hlt
      rw [Tree.object.sizeOf_spec]
      omega
    | _ => exact scalar _ rfl

theorem itemsOrNone_pruned (t : Tree) : (c.pruned trail t).itemsOrNone =
    t.itemsOrNone.zipIdx.filterMap fun e => c.prune (elementTrail trail e.2) e.1 := by
  cases t <;> rfl

theorem membersOrNone_pruned (t : Tree) : (c.pruned trail t).membersOrNone =
    t.membersOrNone.filterMap fun e =>
      (c.prune (memberTrail c.separator trail e.1) e.2).map (e.1, ·) := by
  cases t <;> rfl

/-- An element is selected, or it is kept. -/
theorem isSome_bind_prune {i : Nat} (hi : i < t.itemsOrNone.length) :
    (t.itemsOrNone[i]?.bind (c.prune (elementTrail trail i))).isSome =
      !c.hits trail t [.index i] := by
  rw [hits, Tree.read?, Tree.child?_index, List.getElem?_eq_getElem hi, Option.bind_some, prune_eq]
  change _ = !c.hits (elementTrail trail i) t.itemsOrNone[i] []
  cases c.hits (elementTrail trail i) t.itemsOrNone[i] [] <;> rfl

/-- The index of an element that is kept is lowered to the number of those kept before it. -/
theorem lowerStep_index {i : Nat} {x : Tree}
    (h : t.itemsOrNone[i]?.bind (c.prune (elementTrail trail i)) = some x) :
    c.lowerStep trail t (.index i) = .index
      (Nat.count (fun j => (t.itemsOrNone[j]?.bind (c.prune (elementTrail trail j))).isSome) i) := by
  obtain ⟨item, hitem, -⟩ := Option.bind_eq_some_iff.mp h
  have hi : i < t.itemsOrNone.length := (List.getElem?_eq_some_iff.mp hitem).1
  have hcount := count_add_count (n := i)
    (p := fun j => c.hits trail t [.index j])
    (q := fun j => (t.itemsOrNone[j]?.bind (c.prune (elementTrail trail j))).isSome) fun j hj => by
      rw [isSome_bind_prune (hj.trans hi), Bool.not_eq_true', Bool.not_eq_true]
  rw [lowerStep]
  congr 1
  omega

theorem child?_pruned_key (ht : t.WellFormed) (name : String) :
    (c.pruned trail t).child? (.key name) =
      (t.child? (.key name)).bind (c.prune (memberTrail c.separator trail name)) := by
  have hsorted : Keyed.Sorted t.membersOrNone := by
    cases t with
    | object members => exact ht.1
    | _ => exact Keyed.sorted_nil
  rw [Tree.child?_key, membersOrNone_pruned, Tree.child?_key]
  exact Keyed.get?_filterMap (g := fun name => c.prune (memberTrail c.separator trail name))
    hsorted name

theorem child?_pruned_index {k : Nat} {x : Tree} :
    (c.pruned trail t).child? (.index k) = some x ↔
      ∃ i, (t.child? (.index i)).bind (c.prune (elementTrail trail i)) = some x ∧
        c.lowerStep trail t (.index i) = .index k := by
  have hget : ∀ j,
      t.itemsOrNone.zipIdx[j]?.bind (fun e => c.prune (elementTrail trail e.2) e.1) =
        t.itemsOrNone[j]?.bind (c.prune (elementTrail trail j)) := fun j => by
    rw [List.getElem?_zipIdx, Nat.zero_add, Option.bind_map]
    rfl
  simp only [Tree.child?_index, itemsOrNone_pruned, getElem?_filterMap_iff, hget]
  refine exists_congr fun i => and_congr_right fun hi => ?_
  rw [lowerStep_index hi, Step.index.injEq]

/-- What a step finds once the children are pruned is what remains of a child. -/
theorem child?_pruned_iff (ht : t.WellFormed) {r : Step} {x : Tree} :
    (c.pruned trail t).child? r = some x ↔
      ∃ s, (t.child? s).bind (c.prune (stepTrail c.separator trail s)) = some x ∧
        c.lowerStep trail t s = r := by
  constructor
  · intro h
    cases r with
    | key name => exact ⟨.key name, (child?_pruned_key ht name).symm.trans h, rfl⟩
    | index k =>
      obtain ⟨i, hi, hlower⟩ := child?_pruned_index.mp h
      exact ⟨.index i, hi, hlower⟩
  · rintro ⟨s, hs, rfl⟩
    cases s with
    | key name => exact (child?_pruned_key ht name).trans hs
    | index i => exact child?_pruned_index.mpr ⟨i, hs, rfl⟩

/-- Different children that are kept are found by different steps. -/
theorem lowerStep_injective {s s' : Step} {x x' : Tree}
    (hs : (t.child? s).bind (c.prune (stepTrail c.separator trail s)) = some x)
    (hs' : (t.child? s').bind (c.prune (stepTrail c.separator trail s')) = some x')
    (h : c.lowerStep trail t s = c.lowerStep trail t s') : s = s' := by
  cases s with
  | key name =>
    cases s' with
    | key name' => exact h
    | index j => cases h
  | index i =>
    cases s' with
    | key name' => cases h
    | index j =>
      rw [Tree.child?_index] at hs hs'
      rw [lowerStep_index hs, lowerStep_index hs', Step.index.injEq] at h
      refine congrArg Step.index (Nat.count_injective ?_ ?_ h)
      · exact Option.isSome_of_mem hs
      · exact Option.isSome_of_mem hs'

end Selection

end Delete

end EventPipeline
