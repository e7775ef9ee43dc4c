import Mathlib.Data.List.MinMax
import EventPipeline.Proofs.Pipeline.Steps
import EventPipeline.Proofs.Rule.Writing
import EventPipeline.Proofs.Tree.Depth

/-!
How deep trees can become. A rule of the second phase makes a tree no deeper than it is, or than its
write reaches down: the length of the path and the depth of the value. What holds of each rule holds
of a run (`Pipeline.nesting_bounded`).
-/

namespace EventPipeline

/-- To prune makes nothing deeper. -/
theorem Delete.Selection.depth_prune_le (c : Selection) {trail : String} {t kept : Tree}
    (h : c.prune trail t = some kept) : kept.depth ≤ t.depth := by
  refine prune_induct (R := fun t x => x.depth ≤ t.depth) (fun _ _ => Nat.le_refl _) ?_ ?_ h
  · intro items left _ hleft
    refine Nat.add_le_add_left (Tree.itemsDepth_le_iff.mpr ?_) 1
    intro x hx
    obtain ⟨t, ht, hle⟩ := hleft x hx
    exact hle.trans (Tree.itemsDepth_le_iff.mp (Nat.le_refl _) t ht)
  · intro members left _ hleft
    refine Nat.add_le_add_left (Tree.membersDepth_le_iff.mpr ?_) 1
    intro e he
    obtain ⟨m, hm, hle⟩ := hleft e he
    exact hle.trans (Tree.membersDepth_le_iff.mp (Nat.le_refl _) m hm)

/-- The level that a write reaches down to. -/
def Writing.reach (w : Writing) : Nat := w.steps.length + w.value.depth

theorem Writing.depth_result_le (w : Writing) : w.result.depth ≤ max w.base.depth w.reach :=
  Tree.depth_assign_le w.base w.steps w.value

variable {event : String} {t : Tree} {s : Shared} {n : Nat} {w : Writing}

namespace Rule

variable {r : Rule}

/-- A shift writes the node at its source over what remains without it. -/
theorem exists_of_writing?_shift {m : Shift} (h : (shift m).writing? event t s = some w) :
    ∃ node, t.read? m.source.steps = some node ∧
      w = ⟨(t.extract m.source.steps).1, m.target.steps, node⟩ := by
  have hread := Tree.snd_extract t m.source.steps
  rw [writing?] at h
  split at h
  · cases h
  · next remaining node hx =>
    split at h
    · cases h
      rw [hx] at hread
      exact ⟨node, hread.symm, by rw [hx]⟩
    · cases h

/-- What a rule writes over is no deeper than the tree. -/
theorem depth_base_le (h : r.writing? event t s = some w) : w.base.depth ≤ t.depth := by
  cases r with
  | add a =>
    cases h
    exact Nat.le_refl _
  | shift m =>
    obtain ⟨node, -, rfl⟩ := exists_of_writing?_shift h
    exact Tree.depth_extract_le t m.source.steps
  | delete | store | parse => cases h

theorem depth_result_le (h : r.writing? event t s = some w) :
    w.result.depth ≤ max t.depth w.reach :=
  w.depth_result_le.trans (max_le_max_right w.reach (depth_base_le h))

/-- What a rule makes of a tree is no deeper, unless what it writes reaches below. -/
theorem depth_run_le (hr : r.phase = .main) (ht : t.depth ≤ n)
    (hw : ∀ w, r.writing? event t s = some w → w.reach ≤ n) :
    ∃ next, (r.transform event t).run s = (.ok next, s) ∧ next.depth ≤ n := by
  cases h : r.writing? event t s with
  | some w =>
    exact ⟨w.result, run_of_writing? h, (depth_result_le h).trans (Nat.max_le.mpr ⟨ht, hw w h⟩)⟩
  | none =>
    rcases run_of_writing?_eq_none hr h with hrun | ⟨c, hrun⟩
    · exact ⟨t, hrun, ht⟩
    · refine ⟨_, hrun, ?_⟩
      cases hp : c.prune "" t with
      | none => exact Nat.zero_le n
      | some kept => exact (c.depth_prune_le hp).trans ht

end Rule

namespace Pipeline

variable {rules : List Rule}

theorem depth_applyRules_le (hrules : ∀ r ∈ rules, r.phase = .main) (ht : t.depth ≤ n)
    (hw : ∀ w ∈ writings event t s rules, w.reach ≤ n) :
    ((applyRules event t rules).run s).1.1.depth ≤ n := by
  induction rules generalizing t with
  | nil => exact ht
  | cons r rules ih =>
    obtain ⟨hmain, hrest⟩ := List.forall_mem_cons.mp hrules
    rw [writings] at hw
    obtain ⟨next, hrun, hnext⟩ := Rule.depth_run_le hmain ht fun w h =>
      hw w (List.mem_append_left _ (Option.mem_toList.mpr h))
    rw [hrun] at hw
    rw [run_applyRules_ok hrun]
    exact ih hrest hnext fun w h => hw w (List.mem_append_right _ h)

/--
No write nests deeper than the tree that is written to, or than its path and the value together:
neither one tree laid over another, nor a value written at a path, nor an add or a shift, nor the
second phase of a pipeline with all that is written on its way. A shift makes a tree deeper by no
more levels than its target has steps beyond those of its source.
-/
theorem nesting_bounded :
    (∀ base layer : Tree, (base.merge layer).depth ≤ max base.depth layer.depth) ∧
      (∀ (t : Tree) (path : Path) (v : Tree),
        (Tree.encode path.steps v).depth = path.length + v.depth ∧
          (t.assign path.steps v).depth ≤ max t.depth (path.length + v.depth)) ∧
      (∀ (a : Add) (event : String) (t : Tree) (s : Shared),
        ((a.transform event t).run s).1.depth ≤
          max t.depth (a.path.length + ((a.compose event).run s).1.depth)) ∧
      (∀ (m : Shift) (event : String) (t : Tree) (s : Shared),
        (((m.transform event t).run s).1 = t ∨
          ∃ node, t.read? m.source.steps = some node ∧
            ((m.transform event t).run s).1.depth ≤
              max t.depth (m.target.length + node.depth)) ∧
          ((m.transform event t).run s).1.depth ≤
            t.depth + (m.target.length - m.source.length)) ∧
      ∀ (p : Pipeline) (event : String) (t : Tree) (s : Shared),
        ((p.applyTree event t .main).run s).1.1.depth ≤
          max t.depth
            (((writings event t s (p.phaseRules .main)).map Writing.reach).foldr max 0) := by
  refine ⟨Tree.depth_merge_le, ?_, ?_, ?_, ?_⟩
  · intro t path v
    exact ⟨Tree.depth_encode path.steps v, Tree.depth_assign_le t path.steps v⟩
  · intro a event t s
    rw [Add.run_transform, Add.run_compose]
    exact Tree.depth_assign_le t a.path.steps _
  · intro m event t s
    rw [Rule.run_shift]
    cases h : (Rule.shift m).writing? event t s with
    | none => exact ⟨.inl rfl, Nat.le_add_right _ _⟩
    | some w =>
      have hle := Rule.depth_result_le h
      obtain ⟨node, hnode, rfl⟩ := Rule.exists_of_writing?_shift h
      have hnodeLe : m.source.length + node.depth ≤ t.depth := Tree.depth_read?_le hnode
      refine ⟨.inr ⟨node, hnode, hle⟩, hle.trans (Nat.max_le.mpr ⟨Nat.le_add_right _ _, ?_⟩)⟩
      change m.target.length + node.depth ≤ _
      omega
  · intro p event t s
    apply depth_applyRules_le
    · intro r hr
      exact (mem_phaseRules.mp hr).2
    · exact Nat.le_max_left _ _
    · intro w hw
      have hreach := List.le_max_of_le' 0 (List.mem_map_of_mem hw) (Nat.le_refl w.reach)
      exact hreach.trans (Nat.le_max_right _ _)

end Pipeline

end EventPipeline
