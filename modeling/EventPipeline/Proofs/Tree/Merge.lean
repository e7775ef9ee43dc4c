import EventPipeline.Tree.Merge

/-!
One level of a merge: an element of the layer is laid over what stands in its slot
(`getElem?_mergeItems`), and each member over what the members before it have made. What holds from
level to level holds of a merge (`merge_induct`).
-/

namespace EventPipeline.Tree

variable {slots items : List Tree} {x : Tree}

/-- A slot with an element of a layer over it; null is padding. -/
def coverSlot (slot item : Tree) : Tree := if item.isNull then slot else slot.merge item

theorem mergeItems_cons (slots : List Tree) (item : Tree) (items : List Tree) :
    mergeItems [] slots (item :: items) =
      (slots.head?.getD .null).coverSlot item :: mergeItems [] slots.tail items := by
  cases slots
  all_goals
    rw [mergeItems, mergeItems_done]
    rfl

theorem getElem?_mergeItems (slots items : List Tree) (i : Nat) :
    (mergeItems [] slots items)[i]? =
      match items[i]? with
      | none => slots[i]?
      | some item => some ((slots[i]?.getD .null).coverSlot item) := by
  induction items generalizing slots i with
  | nil => simp [mergeItems]
  | cons item items ih =>
    rw [mergeItems_cons]
    cases i with
    | zero => rw [List.head?_eq_getElem?]; rfl
    | succ i =>
      rw [List.getElem?_cons_succ, List.getElem?_cons_succ, ih, List.getElem?_tail]

theorem length_mergeItems (slots items : List Tree) :
    (mergeItems [] slots items).length = max slots.length items.length := by
  induction items generalizing slots with
  | nil => simp [mergeItems]
  | cons item items ih =>
    rw [mergeItems_cons, List.length_cons, ih, List.length_tail, List.length_cons]
    omega

/-- What stands in a slot is a slot of the base, or null, as it was or with an element over it. -/
theorem of_mem_mergeItems (h : x ∈ mergeItems [] slots items) :
    x ∈ Tree.null :: slots ∨
      ∃ slot ∈ Tree.null :: slots, ∃ item ∈ items, x = slot.merge item := by
  obtain ⟨i, h⟩ := List.mem_iff_getElem?.mp h
  rw [getElem?_mergeItems] at h
  cases hitem : items[i]? with
  | none =>
    rw [hitem] at h
    exact .inl (List.mem_cons_of_mem _ (List.mem_of_getElem? h))
  | some item =>
    rw [hitem] at h
    obtain rfl := Option.some.inj h
    have hslot : slots[i]?.getD .null ∈ Tree.null :: slots := by
      cases hslot : slots[i]? with
      | none => exact List.mem_cons_self
      | some slot => exact List.mem_cons_of_mem _ (List.mem_of_getElem? hslot)
    rw [coverSlot]
    split
    · exact .inl hslot
    · exact .inr ⟨_, hslot, item, List.mem_of_getElem? hitem, rfl⟩

/-- What each member keeps that is laid over a tree, holds in the end. -/
theorem mergeMembers_induct {Q : Tree → Prop} {base : Tree} {members : List (String × Tree)}
    (hbase : Q base)
    (level : ∀ value, ("", value) ∈ members → ∀ current, Q current → Q (current.merge value))
    (member : ∀ name value, (name, value) ∈ members → name ≠ "" → ∀ current, Q current →
      Q (.object (Keyed.insert name
        (((Keyed.get? name current.membersOrNone).getD .null).merge value)
        current.membersOrNone))) :
    Q (mergeMembers base members) := by
  induction members generalizing base with
  | nil =>
    rw [mergeMembers]
    exact hbase
  | cons m rest ih =>
    obtain ⟨name, value⟩ := m
    have hrest (base : Tree) (h : Q base) : Q (mergeMembers base rest) :=
      ih h (fun value hvalue => level value (List.mem_cons_of_mem _ hvalue))
        fun name value hvalue => member name value (List.mem_cons_of_mem _ hvalue)
    rw [mergeMembers]
    split
    · next hname => exact hrest _ (level value (hname ▸ List.mem_cons_self) base hbase)
    · next hname => exact hrest _ (member name value List.mem_cons_self hname base hbase)

/--
What holds between a base, a layer and their merge, by induction on the layer. An object is laid
over a tree member by member: whatever (`Q`) the object that this starts with has, and each member
keeps, the result has.
-/
theorem merge_induct {R : Tree → Tree → Tree → Prop}
    (cover : ∀ base layer : Tree, (∀ members, layer ≠ .object members) → R base layer layer)
    (array : ∀ slots items merged : List Tree, merged.length = max slots.length items.length →
      (∀ x ∈ merged, x ∈ Tree.null :: slots ∨
        ∃ slot ∈ Tree.null :: slots, ∃ item ∈ items, R slot item x) →
      R (.array slots) (.array items) (.array merged))
    (object : ∀ (base : Tree) (members : List (String × Tree)) (result : Tree),
      (∀ Q : Tree → Prop, Q (.object base.membersOrNone) →
        (∀ value, ("", value) ∈ members → ∀ current next, Q current → R current value next →
          Q next) →
        (∀ name value, (name, value) ∈ members → name ≠ "" → ∀ current next, Q current →
          R ((Keyed.get? name current.membersOrNone).getD .null) value next →
          Q (.object (Keyed.insert name next current.membersOrNone))) →
        Q result) →
      R base (.object members) result)
    (base layer : Tree) : R base layer (base.merge layer) := by
  -- By the size of the layer: a value is laid over bases that are no part of the one at hand.
  induction hsize : sizeOf layer using Nat.strongRecOn generalizing base layer with
  | _ size ih =>
    subst hsize
    cases layer with
    | array items =>
      cases base with
      | array slots =>
        rw [merge]
        refine array slots items _ (length_mergeItems slots items) fun x hx => ?_
        refine (of_mem_mergeItems hx).imp_right ?_
        rintro ⟨slot, hslot, item, hitem, rfl⟩
        have hlt := List.sizeOf_lt_of_mem hitem
        refine ⟨slot, hslot, item, hitem, ih (sizeOf item) ?_ slot item rfl⟩
        rw [Tree.array.sizeOf_spec]
        omega
      | _ =>
        simp only [merge]
        apply cover
        intro members h
        cases h
    | object members =>
      have hlt {name : String} {value : Tree} (h : (name, value) ∈ members) :
          sizeOf value < sizeOf (Tree.object members) := by
        have hlt := List.sizeOf_lt_of_mem h
        rw [Prod.mk.sizeOf_spec] at hlt
        rw [Tree.object.sizeOf_spec]
        omega
      rw [merge]
      refine object base members _ fun Q hbase level member => mergeMembers_induct hbase ?_ ?_
      · intro value hvalue current hcurrent
        exact level value hvalue current _ hcurrent (ih _ (hlt hvalue) current value rfl)
      · intro name value hvalue hname current hcurrent
        exact member name value hvalue hname current _ hcurrent (ih _ (hlt hvalue) _ value rfl)
    | _ =>
      simp only [merge]
      apply cover
      intro members h
      cases h

end EventPipeline.Tree
