import EventPipeline.Proofs.Rule.Moves
import EventPipeline.Proofs.Tree.Extract

/-!
Two shifts that bring a member to the root and back again. In between, the tree is what remains
without the member, and a member of its own; so the tree is restored exactly when the value comes
out as it is when it is laid over nothing (`Shift.transform_back_eq_iff`), in particular when no
object in it has a member with the empty name (`shift_there_and_back`).
-/

namespace EventPipeline

open EventPipeline.Path (Step)

namespace Tree

variable {t x : Tree} {path : List Step} {name key : String}

/-- A value that becomes a new member is taken out again as it came in, laid over nothing. -/
theorem extract_assign_key (hname : name ≠ "") (h : t.child? (.key name) = none) (x : Tree) :
    (t.assign [.key name] x).extract [.key name] =
      (.object t.membersOrNone, some (Tree.null.merge x)) := by
  have hget : Keyed.get? name t.membersOrNone = none := (child?_key t name).symm.trans h
  have hassign : t.assign [.key name] x =
      .object (Keyed.insert name (Tree.null.merge x) t.membersOrNone) := by
    rw [assign_key hname, childOrNull, h]
    rfl
  have hchild : (object (Keyed.insert name (Tree.null.merge x) t.membersOrNone)).child?
      (.key name) = some (Tree.null.merge x) := Keyed.get?_insert_self name _ _
  rw [hassign, extract_singleton hchild, withoutChild, Keyed.erase_insert hget]

/-- An object from which something is taken at a path is still an object. -/
theorem object_membersOrNone_extract {members : Keyed Tree} {steps : List Step}
    (hsteps : steps ≠ []) :
    .object ((object members).extract steps).1.membersOrNone =
      ((object members).extract steps).1 := by
  obtain ⟨s, rest, rfl⟩ := List.exists_cons_of_ne_nil hsteps
  cases hchild : (object members).child? s with
  | none => rw [extract_of_child?_eq_none hchild]; rfl
  | some child =>
    by_cases hrest : rest = []
    · subst hrest
      rw [extract_singleton hchild]
      cases s <;> rfl
    · rw [extract_cons hchild hrest]
      cases s <;> rfl

/-- To take a member out makes no member of the root. -/
theorem child?_extract_key (hx : (t.read? (path ++ [.key key])).isSome)
    (hname : t.child? (.key name) = none) :
    (t.extract (path ++ [.key key])).1.child? (.key name) = none := by
  -- The first step leads somewhere, so it is not the one to the new member.
  have hne : ∀ s rest, path ++ [.key key] = s :: rest → s ≠ .key name := by
    rintro s rest heq rfl
    rw [heq, read?, hname] at hx
    cases hx
  cases path with
  | nil => rw [List.nil_append, child?_extract_of_ne (hne _ _ rfl) fun _ => rfl, hname]
  | cons s path =>
    have hlast : path ++ [.key key] = [] → s.isKey := fun h => by simp at h
    rw [List.cons_append, child?_extract_of_ne (hne _ _ rfl) hlast, hname]

/-- What is put back is what has come out of laying the value over nothing. -/
theorem assign_extract_eq_iff (ht : t.WellFormed) (hpath : .key "" ∉ path ++ [.key key])
    (hx : t.read? (path ++ [.key key]) = some x) :
    (t.extract (path ++ [.key key])).1.assign (path ++ [.key key]) (Tree.null.merge x) = t ↔
      x.Plain := by
  have hnone := read?_extract_key ht path key
  rw [assign_eq_place hpath]
  constructor
  · intro h
    -- Whatever is written is plain, and it stands where the value has stood.
    have hread := congrArg (·.read? (path ++ [.key key])) h
    simp only [read?_place_self, hx, Option.some.injEq] at hread
    rw [← hread, written, nodeOrNull, hnone, Option.getD_none, overlay]
    split
    · exact .merge .null x
    · split
      · exact .null
      · exact .merge .null _
  · intro hplain
    have hw : x.WellFormed := ht.read? hx
    have hwritten : (t.extract (path ++ [.key key])).1.written x (path ++ [.key key]) = x := by
      rw [written_of_plain hplain hw, nodeOrNull, hnone, Option.getD_none, overlay,
        merge_null_of_plain hplain hw]
      split
      · next h => exact h.1.symm
      · rfl
    rw [merge_null_of_plain hplain hw, hwritten, place_extract ht hx]

end Tree

namespace Shift

/-- Two shifts that let every node pass: one from a path to a member of the root, and one from
there back to the path. -/
structure Detour (there back : Shift) (steps : List Step) (name : String) : Prop where
  passes : there.value = "" ∧ back.value = ""
  leaves : there.source.steps = steps
  arrives : there.target.steps = [.key name]
  returns : back.source.steps = [.key name]
  ends : back.target.steps = steps

variable {members : Keyed Tree} {there back : Shift} {path : List Step} {key name : String}
  {x : Tree}

/-- Between the two shifts, the value is a member of the root. -/
theorem transform_back (h : Detour there back (path ++ [.key key]) name) (hname : name ≠ "")
    (hx : (Tree.object members).read? (path ++ [.key key]) = some x)
    (hnew : Keyed.get? name members = none) (event : String) :
    (there.transform event (.object members)).bind (back.transform event) =
      .done (((Tree.object members).extract (path ++ [.key key])).1.assign (path ++ [.key key])
        (Tree.null.merge x)) := by
  have hroot : (Tree.object members).child? (.key name) = none := hnew
  have hchild := Tree.child?_extract_key (Option.isSome_of_mem hx) hroot
  have hextract := Tree.extract_assign_key hname hchild x
  rw [Tree.object_membersOrNone_extract (by simp)] at hextract
  have hread : (((Tree.object members).extract (path ++ [.key key])).1.assign [.key name] x).read?
      back.source.steps = some (Tree.null.merge x) := by
    rw [h.returns, ← Tree.snd_extract, hextract]
  rw [← h.leaves] at hx
  rw [transform_of_allowed h.passes.1 event hx, Work.bind, h.leaves, h.arrives,
    transform_of_allowed h.passes.2 event hread, h.returns, h.ends, hextract]

/-- The tree is restored exactly when the value that goes there and back is plain. -/
theorem transform_back_eq_iff (h : Detour there back (path ++ [.key key]) name) (hname : name ≠ "")
    (hpath : .key "" ∉ path ++ [.key key]) (ht : (Tree.object members).WellFormed)
    (hx : (Tree.object members).read? (path ++ [.key key]) = some x)
    (hnew : Keyed.get? name members = none) (event : String) :
    (there.transform event (.object members)).bind (back.transform event) =
      .done (.object members) ↔ x.Plain := by
  rw [transform_back h hname hx hnew, Work.done.injEq]
  exact Tree.assign_extract_eq_iff ht hpath hx

end Shift

/--
A shift that brings a member, from wherever it is, to a new member of the root, and then the shift
from there to where it was, restore the tree and leave all variables as they are, when no object in
the value has a member with the empty name.
-/
theorem shift_there_and_back {members : Keyed Tree} (ht : (Tree.object members).WellFormed)
    {spec spec' : PathSpec} {there back : Shift} (hthere : Shift.ofSpec spec = .ok there)
    (hback : Shift.ofSpec spec' = .ok back) {path : List Step} {key name : String}
    (h : Shift.Detour there back (path ++ [.key key]) name) {x : Tree}
    (hx : (Tree.object members).read? (path ++ [.key key]) = some x) (hnamed : x.Named)
    (hnew : Keyed.get? name members = none) (event : String) (shared : Shared) :
    ((there.transform event (.object members)).bind (back.transform event)).run shared =
      (.object members, shared) := by
  have hname : name ≠ "" := by
    rintro rfl
    exact Shift.key_empty_notMem_target hthere (h.arrives ▸ List.mem_singleton_self _)
  have hpath : .key "" ∉ path ++ [.key key] := h.ends ▸ Shift.key_empty_notMem_target hback
  rw [(Shift.transform_back_eq_iff h hname hpath ht hx hnew event).mpr hnamed.plain]
  rfl

/-- A member of an element, beside which nothing is touched. -/
theorem shift_there_and_back_element :
    let x := Tree.object [("z", .null)]
    let members : Keyed Tree :=
      [("a", .array [.null, .object [("k", x), ("l", .array [.null])]]), ("b", .bool true)]
    let there : Shift := ⟨⟨[.key "a", .index 1, .key "k"]⟩, ⟨[.key "m"]⟩, ""⟩
    let back : Shift := ⟨⟨[.key "m"]⟩, ⟨[.key "a", .index 1, .key "k"]⟩, ""⟩
    ((Tree.object members).WellFormed ∧ Shift.ofSpec { key := "a[1].k:m" } = .ok there ∧
      Shift.ofSpec { key := "m:a[1].k" } = .ok back ∧
      there.Detour back [.key "a", .index 1, .key "k"] "m" ∧
      (Tree.object members).read? [.key "a", .index 1, .key "k"] = some x ∧ x.Named ∧
      Keyed.get? "m" members = none) ∧
    ((there.transform "evt" (.object members)).bind (back.transform "evt")).run .fresh =
      (.object members, .fresh) := by
  intro x members there back
  have hx : x.WellFormed := ⟨List.pairwise_singleton _ _, trivial, trivial⟩
  have ht : (Tree.object members).WellFormed := by
    refine ⟨?_, ⟨trivial, ⟨?_, hx, ⟨trivial, trivial⟩, trivial⟩, trivial⟩, trivial, trivial⟩
    all_goals
      unfold Keyed.Sorted
      decide
  have hnamed : x.Named := .object (by decide) fun m hm => List.mem_singleton.mp hm ▸ .null
  have hthere : Shift.ofSpec { key := "a[1].k:m" } = .ok there :=
    eq_ok_of_toOption (by decide +kernel)
  have hback : Shift.ofSpec { key := "m:a[1].k" } = .ok back :=
    eq_ok_of_toOption (by decide +kernel)
  have h : there.Detour back ([.key "a", .index 1] ++ [.key "k"]) "m" :=
    ⟨⟨rfl, rfl⟩, rfl, rfl, rfl, rfl⟩
  exact ⟨⟨ht, hthere, hback, h, rfl, hnamed, rfl⟩,
    shift_there_and_back ht hthere hback h rfl hnamed rfl "evt" .fresh⟩

end EventPipeline
