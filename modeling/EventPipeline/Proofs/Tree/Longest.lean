import Mathlib.Order.Nat
import EventPipeline.Proofs.Tree.Extract
import EventPipeline.Proofs.Tree.Merge

/-!
The longest array of a tree, at whatever depth it is. To read a node, to replace or remove one, and
to lay trees over each other makes no array longer than the longest of the trees that are put
together (`longest_extract_le`, `longest_merge_le`); to write a value makes new arrays, which are as
long as the steps say (`longest_assign_le`).
-/

namespace EventPipeline.Tree

open EventPipeline.Path (Step)

mutual
/-- The length of the longest array in the tree; zero if there is none. -/
def longest : Tree → Nat
  | .array items => max items.length (itemsLongest items)
  | .object members => membersLongest members
  | _ => 0

def itemsLongest : List Tree → Nat
  | [] => 0
  | t :: ts => max t.longest (itemsLongest ts)

def membersLongest : List (String × Tree) → Nat
  | [] => 0
  | (_, t) :: ms => max t.longest (membersLongest ms)
end

variable {n : Nat} {t base layer node new v : Tree} {s : Step} {steps : List Step}

theorem itemsLongest_le_iff {items : List Tree} :
    itemsLongest items ≤ n ↔ ∀ t ∈ items, t.longest ≤ n := by
  induction items with
  | nil => simp [itemsLongest]
  | cons t items ih => rw [itemsLongest, Nat.max_le, ih, List.forall_mem_cons]

theorem membersLongest_le_iff {members : List (String × Tree)} :
    membersLongest members ≤ n ↔ ∀ m ∈ members, m.2.longest ≤ n := by
  induction members with
  | nil => simp [membersLongest]
  | cons m members ih => rw [membersLongest, Nat.max_le, ih, List.forall_mem_cons]

theorem longest_array_le_iff {items : List Tree} :
    (array items).longest ≤ n ↔ items.length ≤ n ∧ ∀ t ∈ items, t.longest ≤ n := by
  rw [longest, Nat.max_le, itemsLongest_le_iff]

theorem longest_object_le_iff {members : List (String × Tree)} :
    (object members).longest ≤ n ↔ ∀ m ∈ members, m.2.longest ≤ n := by
  rw [longest, membersLongest_le_iff]

/-! ### Nodes read, replaced and removed -/

theorem longest_child?_le (h : t.longest ≤ n) (hc : t.child? s = some node) : node.longest ≤ n := by
  cases s with
  | key name =>
    cases t with
    | object members => exact longest_object_le_iff.mp h _ (Keyed.mem_of_get? hc)
    | _ => cases hc
  | index i =>
    cases t with
    | array items => exact (longest_array_le_iff.mp h).2 _ (List.mem_of_getElem? hc)
    | _ => cases hc

/-- No array in a node is longer than the longest of the tree. -/
theorem longest_read?_le (h : t.longest ≤ n) (hr : t.read? steps = some node) :
    node.longest ≤ n := by
  induction steps generalizing t with
  | nil => exact Option.some.inj hr ▸ h
  | cons s steps ih =>
    obtain ⟨child, hc, hr⟩ := Option.bind_eq_some_iff.mp hr
    exact ih (longest_child?_le h hc) hr

theorem longest_withChild_le (h : t.longest ≤ n) (hnew : new.longest ≤ n) (s : Step) :
    (t.withChild new s).longest ≤ n := by
  cases s with
  | key name =>
    cases t with
    | object members =>
      refine longest_object_le_iff.mpr fun m hm => ?_
      rcases Keyed.mem_replace hm with hm | hm
      · exact hm ▸ hnew
      · exact longest_object_le_iff.mp h m hm
    | _ => exact h
  | index i =>
    cases t with
    | array items =>
      obtain ⟨hlength, hitems⟩ := longest_array_le_iff.mp h
      refine longest_array_le_iff.mpr ⟨List.length_set.trans_le hlength, fun t ht => ?_⟩
      rcases List.mem_or_eq_of_mem_set ht with ht | rfl
      · exact hitems t ht
      · exact hnew
    | _ => exact h

theorem longest_withoutChild_le (h : t.longest ≤ n) (s : Step) :
    (t.withoutChild s).longest ≤ n := by
  cases s with
  | key name =>
    cases t with
    | object members =>
      refine longest_object_le_iff.mpr fun m hm => ?_
      exact longest_object_le_iff.mp h m ((Keyed.sublist_erase _ _).subset hm)
    | _ => exact h
  | index i =>
    cases t with
    | array items =>
      obtain ⟨hlength, hitems⟩ := longest_array_le_iff.mp h
      have hsub := List.eraseIdx_sublist items i
      exact longest_array_le_iff.mpr
        ⟨hsub.length_le.trans hlength, fun t ht => hitems t (hsub.subset ht)⟩
    | _ => exact h

theorem longest_extract_le (h : t.longest ≤ n) (steps : List Step) :
    (t.extract steps).1.longest ≤ n := by
  apply extract_induct (P := fun t => t.longest ≤ n) (Nat.zero_le n)
  · exact fun _ _ _ hc h => longest_child?_le h hc
  · exact fun _ s _ h hnew => longest_withChild_le h hnew s
  · exact fun _ s h => longest_withoutChild_le h s
  · exact h

/-! ### Trees laid over each other -/

theorem longest_membersOrNone_le (h : t.longest ≤ n) :
    ∀ m ∈ t.membersOrNone, m.2.longest ≤ n := by
  cases t with
  | object members => exact longest_object_le_iff.mp h
  | _ => exact nofun

/-- No array is made longer by another tree than the longest of both. -/
theorem longest_merge_le (hb : base.longest ≤ n) (hl : layer.longest ≤ n) :
    (base.merge layer).longest ≤ n := by
  refine merge_induct (R := fun base layer result =>
    base.longest ≤ n → layer.longest ≤ n → result.longest ≤ n) ?_ ?_ ?_ base layer hb hl
  · intro base layer _ _ hl
    exact hl
  · intro slots items merged hlength hmerged hb hl
    obtain ⟨hb, hslots⟩ := longest_array_le_iff.mp hb
    obtain ⟨hl, hitems⟩ := longest_array_le_iff.mp hl
    have hslots : ∀ slot ∈ Tree.null :: slots, slot.longest ≤ n :=
      List.forall_mem_cons.mpr ⟨Nat.zero_le n, hslots⟩
    refine longest_array_le_iff.mpr ⟨hlength.trans_le (Nat.max_le.mpr ⟨hb, hl⟩), fun x hx => ?_⟩
    rcases hmerged x hx with hx | ⟨slot, hslot, item, hitem, hle⟩
    · exact hslots x hx
    · exact hle (hslots slot hslot) (hitems item hitem)
  · intro base members result hresult hb hl
    have hvalues := longest_object_le_iff.mp hl
    refine hresult (fun t => t.longest ≤ n)
      (longest_object_le_iff.mpr (longest_membersOrNone_le hb)) ?_ ?_
    · intro value hvalue current next hcurrent hle
      exact hle hcurrent (hvalues _ hvalue)
    · intro name value hvalue _ current next hcurrent hle
      have hmembers := longest_membersOrNone_le hcurrent
      refine longest_object_le_iff.mpr fun e he => ?_
      rcases Keyed.mem_insert he with rfl | he
      · refine hle ?_ (hvalues _ hvalue)
        cases hget : Keyed.get? name current.membersOrNone with
        | none => exact Nat.zero_le n
        | some previous => exact hmembers _ (Keyed.mem_of_get? hget)
      · exact hmembers e he

/-- New arrays are as long as the steps say. -/
theorem longest_encode_le (hsteps : ∀ i, .index i ∈ steps → i < n) (hv : v.longest ≤ n) :
    (encode steps v).longest ≤ n := by
  induction steps with
  | nil => exact hv
  | cons s steps ih =>
    have hinner := ih fun i hi => hsteps i (List.mem_cons_of_mem _ hi)
    cases s with
    | key name =>
      refine longest_object_le_iff.mpr fun m hm => ?_
      rw [List.mem_singleton.mp hm]
      exact hinner
    | index i =>
      refine longest_array_le_iff.mpr ⟨?_, fun t ht => ?_⟩
      · rw [List.length_append, List.length_replicate]
        exact hsteps i List.mem_cons_self
      · rcases List.mem_append.mp ht with ht | ht
        · rw [List.eq_of_mem_replicate ht]
          exact Nat.zero_le n
        · rw [List.mem_singleton.mp ht]
          exact hinner

theorem longest_assign_le (ht : t.longest ≤ n) (hsteps : ∀ i, .index i ∈ steps → i < n)
    (hv : v.longest ≤ n) : (t.assign steps v).longest ≤ n :=
  longest_merge_le ht (longest_encode_le hsteps hv)

end EventPipeline.Tree
