import Mathlib.Order.Nat
import EventPipeline.Proofs.Tree.Extract
import EventPipeline.Proofs.Tree.Merge

/-!
How deep trees nest that are made of others. A node lies as many levels below the root as its path
has steps (`depth_read?_le`); to take a node out, and to lay one tree over another, makes nothing
deeper than the deepest of the trees at hand (`depth_extract_le`, `depth_merge_le`); and a value
that is written reaches down as far as its path and the value itself (`depth_assign_le`).
-/

namespace EventPipeline.Tree

open EventPipeline.Path (Step)

variable {n : Nat} {t base layer node new : Tree} {s : Step} {steps : List Step}

theorem depth_array_le_iff {items : List Tree} :
    (array items).depth ≤ n + 1 ↔ ∀ t ∈ items, t.depth ≤ n := by
  rw [depth, Nat.add_comm, Nat.add_le_add_iff_right, itemsDepth_le_iff]

theorem depth_object_le_iff {members : List (String × Tree)} :
    (object members).depth ≤ n + 1 ↔ ∀ m ∈ members, m.2.depth ≤ n := by
  rw [depth, Nat.add_comm, Nat.add_le_add_iff_right, membersDepth_le_iff]

theorem depth_membersOrNone_le (h : t.depth ≤ n + 1) : ∀ m ∈ t.membersOrNone, m.2.depth ≤ n := by
  cases t with
  | object members => exact depth_object_le_iff.mp h
  | _ => exact nofun

/-! ### Nodes read, replaced and removed -/

/-- A tree with a child is one level deeper than its deepest child. -/
theorem exists_depth_eq (hc : t.child? s = some node) : ∃ n, t.depth = n + 1 ∧ node.depth ≤ n := by
  cases s with
  | key name =>
    cases t with
    | object members =>
      refine ⟨membersDepth members, by rw [depth, Nat.add_comm], ?_⟩
      exact membersDepth_le_iff.mp (Nat.le_refl _) _ (Keyed.mem_of_get? hc)
    | _ => cases hc
  | index i =>
    cases t with
    | array items =>
      refine ⟨itemsDepth items, by rw [depth, Nat.add_comm], ?_⟩
      exact itemsDepth_le_iff.mp (Nat.le_refl _) _ (List.mem_of_getElem? hc)
    | _ => cases hc

/-- A node does not reach below the tree that it is in. -/
theorem depth_read?_le (hr : t.read? steps = some node) : steps.length + node.depth ≤ t.depth := by
  induction steps generalizing t with
  | nil =>
    obtain rfl := Option.some.inj hr
    exact (Nat.zero_add _).le
  | cons s steps ih =>
    obtain ⟨child, hc, hr⟩ := Option.bind_eq_some_iff.mp hr
    obtain ⟨n, ht, hchild⟩ := exists_depth_eq hc
    have hle := (ih hr).trans hchild
    rw [List.length_cons, ht]
    omega

theorem depth_withChild_le (h : t.depth ≤ n + 1) (hnew : new.depth ≤ n) (s : Step) :
    (t.withChild new s).depth ≤ n + 1 := by
  cases s with
  | key name =>
    cases t with
    | object members =>
      apply depth_object_le_iff.mpr
      intro m hm
      rcases Keyed.mem_replace hm with hm | hm
      · exact hm ▸ hnew
      · exact depth_object_le_iff.mp h m hm
    | _ => exact h
  | index i =>
    cases t with
    | array items =>
      apply depth_array_le_iff.mpr
      intro t ht
      rcases List.mem_or_eq_of_mem_set ht with ht | rfl
      · exact depth_array_le_iff.mp h t ht
      · exact hnew
    | _ => exact h

theorem depth_withoutChild_le (h : t.depth ≤ n + 1) (s : Step) :
    (t.withoutChild s).depth ≤ n + 1 := by
  cases s with
  | key name =>
    cases t with
    | object members =>
      apply depth_object_le_iff.mpr
      intro m hm
      exact depth_object_le_iff.mp h m ((Keyed.sublist_erase _ _).subset hm)
    | _ => exact h
  | index i =>
    cases t with
    | array items =>
      apply depth_array_le_iff.mpr
      intro t ht
      exact depth_array_le_iff.mp h t ((List.eraseIdx_sublist items i).subset ht)
    | _ => exact h

/-- What remains of a tree is no deeper. -/
theorem depth_extract_le (t : Tree) (steps : List Step) : (t.extract steps).1.depth ≤ t.depth := by
  induction steps generalizing t with
  | nil => exact Nat.zero_le _
  | cons s rest ih =>
    cases hc : t.child? s with
    | none => rw [extract_of_child?_eq_none hc]
    | some child =>
      obtain ⟨n, ht, hchild⟩ := exists_depth_eq hc
      rw [ht]
      by_cases hrest : rest = []
      · rw [hrest, extract_singleton hc]
        exact depth_withoutChild_le ht.le s
      · rw [extract_cons hc hrest]
        exact depth_withChild_le ht.le ((ih child).trans hchild) s

/-! ### Trees laid over each other -/

/--
A merge nests no deeper than the deepest of both. The bound is carried from level to level: it goes
down by one where a child is laid over a child, and stays where the member with the empty name is
laid over the object that it is in.
-/
theorem depth_merge_le (base layer : Tree) :
    (base.merge layer).depth ≤ max base.depth layer.depth := by
  refine merge_induct (R := fun base layer result =>
    ∀ n, base.depth ≤ n → layer.depth ≤ n → result.depth ≤ n) ?_ ?_ ?_ base layer _
    (Nat.le_max_left _ _) (Nat.le_max_right _ _)
  · intro base layer _ n _ hl
    exact hl
  · intro slots items merged _ hmerged n hb hl
    obtain ⟨n, rfl⟩ : ∃ m, n = m + 1 := Nat.exists_eq_add_one.mpr ((Nat.le_add_right _ _).trans hl)
    have hslots : ∀ slot ∈ Tree.null :: slots, slot.depth ≤ n :=
      List.forall_mem_cons.mpr ⟨Nat.zero_le n, depth_array_le_iff.mp hb⟩
    apply depth_array_le_iff.mpr
    intro x hx
    rcases hmerged x hx with hx | ⟨slot, hslot, item, hitem, hle⟩
    · exact hslots x hx
    · exact hle n (hslots slot hslot) (depth_array_le_iff.mp hl item hitem)
  · intro base members result hresult n hb hl
    obtain ⟨n, rfl⟩ : ∃ m, n = m + 1 := Nat.exists_eq_add_one.mpr ((Nat.le_add_right _ _).trans hl)
    have hvalues := depth_object_le_iff.mp hl
    apply hresult (fun t => t.depth ≤ n + 1)
    · exact depth_object_le_iff.mpr (depth_membersOrNone_le hb)
    · intro value hvalue current next hcurrent hle
      exact hle (n + 1) hcurrent ((hvalues _ hvalue).trans (Nat.le_succ n))
    · intro name value hvalue _ current next hcurrent hle
      have hmembers := depth_membersOrNone_le hcurrent
      apply depth_object_le_iff.mpr
      intro e he
      rcases Keyed.mem_insert he with rfl | he
      · refine hle n ?_ (hvalues _ hvalue)
        cases hget : Keyed.get? name current.membersOrNone with
        | none => exact Nat.zero_le n
        | some previous => exact hmembers _ (Keyed.mem_of_get? hget)
      · exact hmembers e he

theorem itemsDepth_append (xs ys : List Tree) :
    itemsDepth (xs ++ ys) = max (itemsDepth xs) (itemsDepth ys) := by
  induction xs with
  | nil => exact (Nat.zero_max _).symm
  | cons t xs ih => rw [List.cons_append, itemsDepth, ih, itemsDepth, Nat.max_assoc]

theorem itemsDepth_replicate_null (i : Nat) : itemsDepth (List.replicate i .null) = 0 := by
  apply Nat.le_zero.mp
  apply itemsDepth_le_iff.mpr
  intro t ht
  rw [List.eq_of_mem_replicate ht]
  exact Nat.le_refl 0

/-- Every step is one level; padding is none. -/
theorem depth_encode (steps : List Step) (v : Tree) :
    (encode steps v).depth = steps.length + v.depth := by
  induction steps with
  | nil => exact (Nat.zero_add _).symm
  | cons s steps ih =>
    have hinner : 1 + max (encode steps v).depth 0 = (s :: steps).length + v.depth := by
      rw [ih, Nat.max_zero, List.length_cons]
      omega
    cases s with
    | key name => exact hinner
    | index i =>
      rw [encode_index, depth, itemsDepth_append, itemsDepth_replicate_null, Nat.zero_max]
      exact hinner

theorem depth_assign_le (t : Tree) (steps : List Step) (v : Tree) :
    (t.assign steps v).depth ≤ max t.depth (steps.length + v.depth) :=
  depth_encode steps v ▸ depth_merge_le t (encode steps v)

end EventPipeline.Tree
