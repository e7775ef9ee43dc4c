import EventPipeline.Proofs.Rule.Composition
import EventPipeline.Proofs.Rule.Exhaustion

/-!
What rules write. An add writes the value that it composes; a shift writes the node that it has
taken out, if there is one that may be moved. All that such a rule does is to carry its write out
(`Rule.run_of_writing?`); one that writes nothing leaves the tree, or prunes it
(`Rule.run_of_writing?_eq_none`).
-/

namespace EventPipeline

open EventPipeline.Path (Step)

/-- A value that is to be written into a tree at the end of the steps. -/
structure Writing where
  base : Tree
  steps : List Step
  value : Tree
deriving DecidableEq

def Writing.result (w : Writing) : Tree := w.base.assign w.steps w.value

namespace Rule

/-- The path that a rule writes at. -/
def target? : Rule → Option Path
  | .add a => some a.path
  | .shift m => some m.target
  | .delete _ | .store _ | .parse _ => none

/-- What a rule writes when it has its turn on a tree. -/
def writing? (r : Rule) (event : String) (t : Tree) (s : Shared) : Option Writing :=
  match r with
  | .add a => some ⟨t, a.path.steps, ((a.compose event).run s).1⟩
  | .shift m =>
    match t.extract m.source.steps with
    | (_, none) => none
    | (remaining, some node) =>
      if ((m.allows event node).run s).1 then some ⟨remaining, m.target.steps, node⟩ else none
  | .delete _ | .store _ | .parse _ => none

variable {r : Rule} {event : String} {t : Tree} {s : Shared} {w : Writing}

theorem run_shift (m : Shift) (event : String) (t : Tree) (s : Shared) :
    (m.transform event t).run s =
      (((shift m).writing? event t s).elim t Writing.result, s) := by
  refine Prod.ext ?_ ((m.transform_asks event t).run_eq s)
  rw [Shift.transform, writing?]
  rcases t.extract m.source.steps with ⟨remaining, _ | node⟩
  · rfl
  · dsimp only
    rw [Work.run_bind, Work.run]
    split <;> rfl

/-- The result of a rule that writes is what it writes, laid over what is left of the tree. -/
theorem run_of_writing? (h : r.writing? event t s = some w) :
    (r.transform event t).run s = (.ok w.result, s) := by
  cases r with
  | add a =>
    cases h
    rw [transform, Work.run_bind, Add.run_transform, Writing.result, Add.run_compose]
    rfl
  | shift m =>
    rw [transform, Work.run_bind, run_shift, h]
    rfl
  | delete | store | parse => cases h

/-- A rule of the second phase that writes nothing leaves the tree, or is a delete. -/
theorem run_of_writing?_eq_none (hr : r.phase = .main) (h : r.writing? event t s = none) :
    (r.transform event t).run s = (.ok t, s) ∨
      ∃ c : Delete.Selection,
        (r.transform event t).run s = (.ok ((c.prune "" t).getD .null), s) := by
  cases r with
  | add a => cases h
  | shift m =>
    left
    rw [transform, Work.run_bind, run_shift, h]
    rfl
  | delete d =>
    right
    refine ⟨d.selection event s, ?_⟩
    rw [transform, Work.run_bind, d.run_transform_eq]
    rfl
  | store | parse => cases hr

/-- A rule writes at its target. -/
theorem steps_of_writing? (h : r.writing? event t s = some w) :
    ∃ path, r.target? = some path ∧ w.steps = path.steps := by
  cases r with
  | add a =>
    cases h
    exact ⟨a.path, rfl, rfl⟩
  | shift m =>
    rw [writing?] at h
    split at h
    · cases h
    · split at h
      · cases h
        exact ⟨m.target, rfl, rfl⟩
      · cases h
  | delete | store | parse => cases h

/-- What holds of texts and of the event's variables, and of a tree, what is left of it and each of
its nodes, holds of what is written and of what it is laid over. -/
theorem writing?_induct {P : Tree → Prop} (text : ∀ s, P (.text s))
    (value : ∀ name t, s.storage.get? event name = some t → P t)
    (extract : ∀ steps, P (t.extract steps).1)
    (read : ∀ steps node, t.read? steps = some node → P node)
    (h : r.writing? event t s = some w) : P w.base ∧ P w.value := by
  cases r with
  | add a =>
    cases h
    refine ⟨read [] t rfl, ?_⟩
    dsimp only
    rw [Add.run_compose]
    exact Add.interpolate_induct text value a.template
  | shift m =>
    have hremaining := extract m.source.steps
    have hnode := read m.source.steps
    rw [← Tree.snd_extract] at hnode
    rw [writing?] at h
    split at h
    · cases h
    · next remaining node hx =>
      rw [hx] at hremaining hnode
      split at h
      · cases h
        exact ⟨hremaining, hnode node rfl⟩
      · cases h
  | delete | store | parse => cases h

end Rule

namespace Pipeline

/-- All that is written in a run of rules, in the order in which it is. -/
def writings (event : String) (t : Tree) (s : Shared) : List Rule → List Writing
  | [] => []
  | r :: rules =>
    (r.writing? event t s).toList ++
      match (r.transform event t).run s with
      | (.ok next, left) => writings event next left rules
      | (.error _, left) => writings event t left rules

theorem exists_of_mem_writings {event : String} {t : Tree} {s : Shared} {rules : List Rule}
    {w : Writing} (h : w ∈ writings event t s rules) :
    ∃ r ∈ rules, ∃ t s, r.writing? event t s = some w := by
  induction rules generalizing t s with
  | nil => cases h
  | cons r rules ih =>
    rw [writings] at h
    rcases List.mem_append.mp h with h | h
    · exact ⟨r, List.mem_cons_self, t, s, Option.mem_toList.mp h⟩
    · split at h
      all_goals
        obtain ⟨r', hr', hw⟩ := ih h
        exact ⟨r', List.mem_cons_of_mem _ hr', hw⟩

end Pipeline

end EventPipeline
