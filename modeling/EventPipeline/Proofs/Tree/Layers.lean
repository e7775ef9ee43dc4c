import EventPipeline.Proofs.Tree.Merge
import EventPipeline.Proofs.Tree.Place
import EventPipeline.Proofs.Tree.Plain

/-!
One tree over another more than once. What stands under a name once an object has been laid over a
tree is made of what stood there and of what the object has there (`exists_merge_object`). Main
statement: a layer in which no member has the empty name changes nothing when it is laid over a tree
a second time (`merge_merge_self`), so that writing a value twice is writing it once
(`assign_assign_self`).
-/

namespace EventPipeline

namespace Tree

open EventPipeline.Path (Step)

variable {t base v : Tree} {steps : List Step}

/-- Members that are laid over an object, each over what stands under its name. -/
theorem exists_mergeMembers {done members : Keyed Tree} (hd : Keyed.Sorted done)
    (hs : Keyed.Sorted members) (hn : ∀ m ∈ members, m.1 ≠ "") :
    ∃ merged : Keyed Tree, mergeMembers (.object done) members = .object merged ∧
      Keyed.Sorted merged ∧ ∀ name, Keyed.get? name merged =
        match Keyed.get? name members with
        | none => Keyed.get? name done
        | some value => some (((Keyed.get? name done).getD .null).merge value) := by
  induction members generalizing done with
  | nil => exact ⟨done, by rw [mergeMembers], hd, fun _ => rfl⟩
  | cons m rest ih =>
    obtain ⟨key, value⟩ := m
    obtain ⟨hkey, hs⟩ := List.pairwise_cons.mp hs
    obtain ⟨merged, hmerged, hsorted, hget⟩ :=
      ih (Keyed.sorted_insert hd key (((Keyed.get? key done).getD .null).merge value)) hs
        fun m hm => hn m (List.mem_cons_of_mem _ hm)
    refine ⟨merged, ?_, hsorted, fun name => ?_⟩
    · rw [mergeMembers, if_neg (hn _ List.mem_cons_self)]
      exact hmerged
    rw [hget, Keyed.get?]
    by_cases hname : key = name
    · -- No other member has the name of the first one.
      subst hname
      rw [if_pos rfl, Keyed.get?_eq_none fun e he => (String.ne_of_lt (hkey e he)).symm]
      exact Keyed.get?_insert_self key _ done
    · rw [if_neg hname, Keyed.get?_insert_of_ne (Ne.symm hname)]

/-- What a tree becomes under the members of an object. -/
theorem exists_merge_object {members : Keyed Tree} (hb : Keyed.Sorted base.membersOrNone)
    (hs : Keyed.Sorted members) (hn : ∀ m ∈ members, m.1 ≠ "") :
    ∃ merged : Keyed Tree, base.merge (.object members) = .object merged ∧
      Keyed.Sorted merged ∧ ∀ name, Keyed.get? name merged =
        match Keyed.get? name members with
        | none => Keyed.get? name base.membersOrNone
        | some value => some (((Keyed.get? name base.membersOrNone).getD .null).merge value) := by
  obtain ⟨merged, hmerged, h⟩ := exists_mergeMembers hb hs hn
  exact ⟨merged, by rw [merge, hmerged], h⟩

theorem WellFormed.childOrNull (h : t.WellFormed) (s : Step) : (t.childOrNull s).WellFormed := by
  cases hc : t.child? s with
  | none =>
    rw [Tree.childOrNull, hc]
    trivial
  | some child =>
    rw [Tree.childOrNull, hc]
    exact h.child? hc

theorem WellFormed.sorted_membersOrNone (h : t.WellFormed) : Keyed.Sorted t.membersOrNone := by
  cases t with
  | object members => exact h.1
  | _ => exact Keyed.sorted_nil

/-- An array of named elements is laid over whatever elements there are, none where there is no
array. -/
theorem merge_array {items : List Tree} (hn : ∀ t ∈ items, t.Named)
    (hw : ∀ t ∈ items, t.WellFormed) (base : Tree) :
    base.merge (.array items) = .array (mergeItems [] base.itemsOrNone items) := by
  have hempty : mergeItems [] [] items = items := by
    refine List.ext_getElem? fun i => ?_
    rw [getElem?_mergeItems]
    cases hi : items[i]? with
    | none => rfl
    | some item =>
      have hmem : item ∈ items := List.mem_of_getElem? hi
      simp only [List.getElem?_nil, Option.getD_none, coverSlot,
        merge_null_of_plain (hn item hmem).plain (hw item hmem)]
      cases item <;> rfl
  cases base with
  | array slots => rw [merge]; rfl
  | _ =>
    simp only [merge]
    exact congrArg Tree.array hempty.symm

/-- A layer changes nothing when it is laid over a tree once more. -/
theorem merge_merge_self (hn : v.Named) (hw : v.WellFormed) (hb : base.WellFormed) :
    (base.merge v).merge v = base.merge v := by
  induction hn generalizing base with
  | @array items hn ih =>
    have hitems := itemsWellFormed_iff.mp hw
    rw [merge_array hn hitems, merge_array hn hitems]
    refine congrArg Tree.array (List.ext_getElem? fun i => ?_)
    change (mergeItems [] (mergeItems [] base.itemsOrNone items) items)[i]? = _
    simp only [getElem?_mergeItems]
    cases hi : items[i]? with
    | none => rfl
    | some item =>
      have hmem : item ∈ items := List.mem_of_getElem? hi
      have hslot := hb.childOrNull (.index i)
      rw [childOrNull, child?_index] at hslot
      simp only [Option.getD_some, coverSlot]
      split
      · rfl
      · rw [ih item hmem (hitems item hmem) hslot]
  | @object members hn _ ih =>
    obtain ⟨hs, hm⟩ := hw
    rw [membersWellFormed_iff] at hm
    obtain ⟨once, honce, hsorted, hget⟩ := exists_merge_object hb.sorted_membersOrNone hs hn
    have hlayer : Keyed.Sorted (object once).membersOrNone := hsorted
    obtain ⟨twice, htwice, hsorted', hget'⟩ := exists_merge_object hlayer hs hn
    rw [honce, htwice]
    refine congrArg Tree.object (Keyed.eq_of_get?_eq hsorted' hsorted fun name => ?_)
    rw [hget', membersOrNone, hget]
    cases hname : Keyed.get? name members with
    | none => rfl
    | some value =>
      have hmem : (name, value) ∈ members := Keyed.mem_of_get? hname
      have hprevious := hb.childOrNull (.key name)
      rw [childOrNull, child?_key] at hprevious
      simp only [Option.getD_some]
      rw [ih _ hmem (hm _ hmem) hprevious]
  | _ => simp only [merge]

theorem Named.encode (h : v.Named) (hnames : .key "" ∉ steps) : (Tree.encode steps v).Named := by
  induction steps with
  | nil => exact h
  | cons s steps ih =>
    obtain ⟨hs, hsteps⟩ := List.ne_and_not_mem_of_not_mem_cons hnames
    cases s with
    | key name =>
      refine .object (fun m hm => ?_) fun m hm => ?_
      all_goals rw [List.mem_singleton.mp hm]
      · rintro rfl
        exact hs rfl
      · exact ih hsteps
    | index i =>
      refine .array fun t ht => ?_
      rcases List.mem_append.mp ht with ht | ht
      · rw [List.eq_of_mem_replicate ht]
        exact .null
      · rw [List.mem_singleton.mp ht]
        exact ih hsteps

theorem WellFormed.encode (h : v.WellFormed) (steps : List Step) :
    (Tree.encode steps v).WellFormed := by
  induction steps with
  | nil => exact h
  | cons s steps ih =>
    cases s with
    | key name => exact ⟨List.pairwise_singleton _ _, ih, trivial⟩
    | index i =>
      refine itemsWellFormed_iff.mpr fun t ht => ?_
      rcases List.mem_append.mp ht with ht | ht
      · rw [List.eq_of_mem_replicate ht]
        trivial
      · rw [List.mem_singleton.mp ht]
        exact ih

/-- A value that is written where it has been written makes no difference. -/
theorem assign_assign_self (hsteps : .key "" ∉ steps) (hn : v.Named) (hw : v.WellFormed)
    (ht : t.WellFormed) : (t.assign steps v).assign steps v = t.assign steps v :=
  merge_merge_self (hn.encode hsteps) (hw.encode steps) ht

end Tree

end EventPipeline
