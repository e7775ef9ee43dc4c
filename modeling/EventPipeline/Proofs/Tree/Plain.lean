import EventPipeline.Proofs.Tree.Merge

/-!
Laying a tree over nothing. The value of a member with the empty name is laid over the object that
it is a member of, so that the member itself is gone. Main statement: a tree comes out as it is
exactly when it is *plain*, that is, when no such member is reached through objects alone
(`merge_null_eq_self_iff`); what stands inside an array is not touched.
-/

namespace EventPipeline.Tree

/-- No object in the tree has a member with the empty name. -/
inductive Named : Tree → Prop where
  | null : Named .null
  | bool (b : Bool) : Named (.bool b)
  | number (n : Number) : Named (.number n)
  | text (s : String) : Named (.text s)
  | array {items : List Tree} : (∀ t ∈ items, Named t) → Named (.array items)
  | object {members : List (String × Tree)} :
    (∀ m ∈ members, m.1 ≠ "") → (∀ m ∈ members, Named m.2) → Named (.object members)

/-- No object that is reached through objects alone has a member with the empty name. -/
inductive Plain : Tree → Prop where
  | null : Plain .null
  | bool (b : Bool) : Plain (.bool b)
  | number (n : Number) : Plain (.number n)
  | text (s : String) : Plain (.text s)
  | array (items : List Tree) : Plain (.array items)
  | object {members : List (String × Tree)} :
    (∀ m ∈ members, m.1 ≠ "") → (∀ m ∈ members, Plain m.2) → Plain (.object members)

variable {t : Tree}

theorem Named.plain (h : t.Named) : t.Plain := by
  induction h with
  | null => exact .null
  | bool b => exact .bool b
  | number n => exact .number n
  | text s => exact .text s
  | array => exact .array _
  | object hn _ ih => exact .object hn ih

theorem Plain.members {members : List (String × Tree)} (h : Plain (.object members)) :
    (∀ m ∈ members, m.1 ≠ "") ∧ ∀ m ∈ members, m.2.Plain := by
  cases h with
  | object hn h => exact ⟨hn, h⟩

theorem Plain.membersOrNone (h : t.Plain) : Plain (.object t.membersOrNone) := by
  cases h with
  | object hn h => exact .object hn h
  | _ => exact .object nofun nofun

theorem Plain.getD_get? {members : Keyed Tree} (h : Plain (.object members)) (name : String) :
    ((Keyed.get? name members).getD .null).Plain := by
  cases hg : Keyed.get? name members with
  | none => exact .null
  | some value => exact h.members.2 _ (Keyed.mem_of_get? hg)

theorem Plain.insert {members : Keyed Tree} (h : Plain (.object members)) {name : String}
    (hname : name ≠ "") (ht : t.Plain) : Plain (.object (Keyed.insert name t members)) := by
  obtain ⟨hn, hm⟩ := h.members
  refine .object (fun m hm' => ?_) (fun m hm' => ?_)
  · rcases Keyed.mem_insert hm' with rfl | hm'
    · exact hname
    · exact hn m hm'
  · rcases Keyed.mem_insert hm' with rfl | hm'
    · exact ht
    · exact hm m hm'

/-- No layer makes a plain tree anything else. -/
theorem Plain.merge {base : Tree} (hb : base.Plain) (layer : Tree) : (base.merge layer).Plain := by
  refine merge_induct (R := fun base _ result => base.Plain → result.Plain) ?_ ?_ ?_ base layer hb
  · intro base layer hlayer _
    cases layer with
    | null => exact .null
    | bool b => exact .bool b
    | number n => exact .number n
    | text s => exact .text s
    | array items => exact .array items
    | object members => exact absurd rfl (hlayer members)
  · intro slots items merged _ _ _
    exact .array merged
  · intro base members result hresult hb
    refine hresult Plain hb.membersOrNone (fun _ _ _ _ hcurrent hnext => hnext hcurrent) ?_
    intro name value _ hname current next hcurrent hnext
    have hmembers := hcurrent.membersOrNone
    exact hmembers.insert hname (hnext (hmembers.getD_get? name))

/-- Members that come after all others are appended, when each stays as it is over nothing. -/
theorem mergeMembers_eq_append (done : Keyed Tree) {members : Keyed Tree}
    (hs : Keyed.Sorted (done ++ members))
    (hn : ∀ m ∈ members, m.1 ≠ "") (hv : ∀ m ∈ members, Tree.null.merge m.2 = m.2) :
    mergeMembers (.object done) members = .object (done ++ members) := by
  induction members generalizing done with
  | nil => rw [mergeMembers, List.append_nil]
  | cons m rest ih =>
    obtain ⟨name, value⟩ := m
    have hlt : ∀ e ∈ done, e.1 < name := fun e he =>
      (List.pairwise_append.mp hs).2.2 e he (name, value) List.mem_cons_self
    have hget : Keyed.get? name done = none :=
      Keyed.get?_eq_none fun e he => String.ne_of_lt (hlt e he)
    have hvalue : Tree.null.merge value = value := hv _ List.mem_cons_self
    rw [List.append_cons] at hs ⊢
    rw [mergeMembers, if_neg (hn _ List.mem_cons_self)]
    simp only [membersOrNone, hget, Option.getD_none, hvalue, Keyed.insert_of_lt hlt]
    exact ih _ hs (fun m hm => hn m (List.mem_cons_of_mem _ hm))
      fun m hm => hv m (List.mem_cons_of_mem _ hm)

theorem merge_null_of_plain (h : t.Plain) (hw : t.WellFormed) : Tree.null.merge t = t := by
  induction h with
  | object hn _ ih =>
    rw [WellFormed, membersWellFormed_iff] at hw
    obtain ⟨hs, hm⟩ := hw
    rw [merge]
    exact mergeMembers_eq_append [] hs hn fun m hm' => ih m hm' (hm m hm')
  | _ => simp only [merge]

/-- Exactly the plain trees stay as they are when they are laid over nothing. -/
theorem merge_null_eq_self_iff (hw : t.WellFormed) : Tree.null.merge t = t ↔ t.Plain :=
  ⟨fun h => h ▸ Plain.merge .null t, fun h => merge_null_of_plain h hw⟩

end EventPipeline.Tree
