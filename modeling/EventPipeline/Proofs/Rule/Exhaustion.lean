import EventPipeline.Proofs.Rule.Addressing
import EventPipeline.Proofs.Work.Requests

/-!
A delete that is applied once more. Where the elements of an array move up, a key may come to stand
for another element than before; the trail of an element has a bracket in it, though, and so has
every trail below. Main statements: what is kept by a delete whose key has no bracket holds nothing
that it selects (`Selection.not_hits_of_prune`), so that there is nothing left to delete
(`Delete.transform_again`).
-/

namespace EventPipeline

open EventPipeline.Path (Step)

/-- A filter does not tell a node from what is kept of it. -/
theorem Tree.Alike.matchesFilter_eq {t t' : Tree} (h : t.Alike t') (filter : String) :
    t.matchesFilter filter = t'.matchesFilter filter := by
  cases h <;> rfl

namespace Delete

section Trails

variable {separator trail : String} {position : List Step} {c : Char}

theorem mem_stepTrail (h : c ∈ trail.toList) (s : Step) :
    c ∈ (stepTrail separator trail s).toList := by
  have htrail : trail ≠ "" := by
    rintro rfl
    cases h
  cases s with
  | key name => simp [stepTrail, memberTrail, htrail, h]
  | index i => simp [stepTrail, elementTrail, h]

/-- A trail goes on from the trail of each node above. -/
theorem mem_trailOf (h : c ∈ trail.toList) (position : List Step) :
    c ∈ (trailOf separator trail position).toList := by
  induction position generalizing trail with
  | nil => exact h
  | cons s rest ih => exact ih (mem_stepTrail h s)

/-- A trail without a bracket leads through members only. -/
theorem isKey_of_bracket_notMem (h : '[' ∉ (trailOf separator trail position).toList) :
    ∀ s ∈ position, s.isKey := by
  induction position generalizing trail with
  | nil => exact nofun
  | cons s rest ih =>
    refine List.forall_mem_cons.mpr ⟨?_, ih h⟩
    cases s with
    | key name => rfl
    | index i =>
      have hbracket : '[' ∈ (stepTrail separator trail (.index i)).toList := by
        simp [stepTrail, elementTrail]
      exact absurd (mem_trailOf hbracket rest) h

end Trails

namespace Selection

variable {c : Selection} {trail : String} {t kept : Tree}

theorem wellFormed_of_prune (h : c.prune trail t = some kept) (ht : t.WellFormed) :
    kept.WellFormed := by
  refine prune_induct (R := fun t x => t.WellFormed → x.WellFormed) (fun _ _ ht => ht) ?_ ?_ h ht
  · intro items left _ hleft ht
    refine Tree.itemsWellFormed_iff.mpr fun x hx => ?_
    obtain ⟨y, hy, hxy⟩ := hleft x hx
    exact hxy (Tree.itemsWellFormed_iff.mp ht y hy)
  · intro members left hsorted hleft ht
    refine ⟨hsorted ht.1, Tree.membersWellFormed_iff.mpr fun e he => ?_⟩
    obtain ⟨m, hm, hem⟩ := hleft e he
    exact hem (Tree.membersWellFormed_iff.mp ht.2 m hm)

/-- Members are found where they were; it is elements only that move. -/
theorem lowered_eq_of_isKey {position : List Step}
    (h : ∀ s ∈ c.lowered trail t position, s.isKey) : c.lowered trail t position = position := by
  induction position generalizing trail t with
  | nil => rfl
  | cons s rest ih =>
    obtain ⟨hs, hrest⟩ := List.forall_mem_cons.mp h
    cases s with
    | key name => rw [lowered, ih hrest, lowerStep]
    | index i => cases hs

/-- Nothing of what is kept is selected, when the key can stand for no element. -/
theorem not_hits_of_prune (ht : t.WellFormed) (hkey : '[' ∉ c.key.toList)
    (h : c.prune trail t = some kept) (place : List Step) : ¬ c.hits trail kept place := by
  intro hhit
  obtain ⟨x, hx, hselects⟩ := (Option.any_eq_true _ _).mp hhit
  have hread : (c.prune trail t).bind (·.read? place) = some x := by
    rw [h]
    exact hx
  obtain ⟨position, hstays, hlowered, hx⟩ := (read?_prune_iff ht).mp hread
  obtain ⟨node, hnode, hprune⟩ := Option.bind_eq_some_iff.mp hx
  obtain ⟨-, rfl⟩ := prune_eq_some_iff.mp hprune
  obtain ⟨hpath, hfilter⟩ := Bool.and_eq_true_iff.mp hselects
  -- Was the node that this is left of selected, it was for the same reason.
  refine hstays.spared position List.prefix_rfl ?_
  rw [hits, hnode]
  refine Bool.and_eq_true_iff.mpr ⟨?_, ?_⟩
  · rcases Bool.or_eq_true_iff.mp hpath with hempty | hpath
    · rw [hempty, Bool.true_or]
    · have hkeys : ∀ s ∈ place, s.isKey := isKey_of_bracket_notMem (eq_of_beq hpath ▸ hkey)
      have hsame : c.lowered trail t position = position :=
        lowered_eq_of_isKey (hlowered.symm ▸ hkeys)
      rw [← hsame, hlowered, hpath, Bool.or_true]
  · cases hf : c.filter with
    | none => rfl
    | some filter =>
      rw [hf] at hfilter
      exact ((alike_pruned node).matchesFilter_eq filter).trans hfilter

/-- Nothing is left of null but null. -/
theorem getD_prune_null (c : Selection) (trail : String) :
    (c.prune trail .null).getD .null = .null := by
  rw [prune_eq]
  split <;> rfl

end Selection

theorem run_transform_eq (d : Delete) (event : String) (t : Tree) (shared : Shared) :
    (d.transform event t).run shared =
      (((d.selection event shared).prune "" t).getD .null, shared) := by
  refine Prod.ext (d.run_transform event t shared) ?_
  rw [transform, Work.run_bind]
  exact (d.filterFor_asks event).run_eq shared

/-- A delete whose key has no bracket changes nothing when it is applied to its own result. -/
theorem transform_again {t : Tree} (ht : t.WellFormed) {d : Delete} (hkey : '[' ∉ d.key.toList)
    (event : String) (shared : Shared) :
    let once := ((d.transform event t).run shared).1
    (d.transform event once).run shared = (once, shared) := by
  have hkey : '[' ∉ (d.selection event shared).key.toList := hkey
  simp only [run_transform_eq, Prod.mk.injEq, and_true]
  cases hprune : (d.selection event shared).prune "" t with
  | none => exact Selection.getD_prune_null _ ""
  | some kept =>
    have hself : (d.selection event shared).prune "" kept = some kept :=
      Selection.prune_eq_self (Selection.wellFormed_of_prune hprune ht)
        (Selection.not_hits_of_prune ht hkey hprune)
    rw [Option.getD_some, hself, Option.getD_some]

/-- By value, so that the last element moves up twice; and by a path that two members have. -/
theorem transform_again_list :
    let t := Tree.object [("a", .object [("b", .null), ("c", .text "x")]), ("a.b", .bool true),
      ("list", .array [.text "x", .null, .text "x", .array [.text "x"]])]
    let byValue : Delete := ⟨"", ".", "$v"⟩
    let byPath : Delete := ⟨"a.b", ".", ""⟩
    let shared := { Shared.fresh with storage := Storage.empty.set "evt" "$v" (.text "x") }
    let withoutValue := Tree.object [("a", .object [("b", .null)]), ("a.b", .bool true),
      ("list", .array [.null, .array []])]
    let withoutPath := Tree.object [("a", .object [("c", .text "x")]),
      ("list", .array [.text "x", .null, .text "x", .array [.text "x"]])]
    (t.WellFormed ∧ '[' ∉ byValue.key.toList ∧ '[' ∉ byPath.key.toList) ∧
    (((byValue.transform "evt" t).run shared).1 = withoutValue ∧
      (byValue.transform "evt" withoutValue).run shared = (withoutValue, shared)) ∧
    ((byPath.transform "evt" t).run shared).1 = withoutPath ∧
      (byPath.transform "evt" withoutPath).run shared = (withoutPath, shared) := by
  intro t byValue byPath shared withoutValue withoutPath
  have ht : t.WellFormed := by
    refine ⟨?_, ⟨?_, trivial, trivial, trivial⟩, trivial, ?_, trivial⟩
    · unfold Keyed.Sorted
      decide
    · unfold Keyed.Sorted
      decide
    · exact ⟨trivial, trivial, trivial, ⟨trivial, trivial⟩, trivial⟩
  have hvalue : '[' ∉ byValue.key.toList := by decide
  have hpath : '[' ∉ byPath.key.toList := by decide
  have honce : ((byValue.transform "evt" t).run shared).1 = withoutValue := by decide +kernel
  have honce' : ((byPath.transform "evt" t).run shared).1 = withoutPath := by decide +kernel
  have hagain := transform_again ht hvalue "evt" shared
  have hagain' := transform_again ht hpath "evt" shared
  rw [honce] at hagain
  rw [honce'] at hagain'
  exact ⟨⟨ht, hvalue, hpath⟩, ⟨honce, hagain⟩, honce', hagain'⟩

/-- The key of an element comes to stand for the one that moves up. -/
example :
    let t := Tree.array [.bool true, .bool false]
    let d : Delete := ⟨"[0]", ".", ""⟩
    ((d.transform "evt" t).run .fresh).1 = .array [.bool false] ∧
      ((d.transform "evt" (.array [.bool false])).run .fresh).1 = .array [] := by
  decide +kernel

end Delete

end EventPipeline
