import EventPipeline.Work

/-!
Work on several events at the same time. A *schedule* says whose next request is answered at each
turn; `play` follows a schedule.
-/

namespace EventPipeline.Work

variable {α : Type}

/-- Work on several events, and what they share. -/
structure Crew (α : Type) where
  works : List (Work α)
  shared : Shared

namespace Crew

/-- Answers the next request of the work with number `i`, if it has one. -/
def turn (c : Crew α) (i : Nat) : Crew α :=
  match c.works[i]? with
  | none => c
  | some work =>
    let (work, shared) := work.step c.shared
    { works := c.works.set i work, shared }

def play (c : Crew α) (schedule : List Nat) : Crew α := schedule.foldl turn c

@[simp] theorem play_nil (c : Crew α) : c.play [] = c := rfl

@[simp] theorem play_cons (c : Crew α) (i : Nat) (schedule : List Nat) :
    c.play (i :: schedule) = (c.turn i).play schedule := rfl

theorem play_append (c : Crew α) (first second : List Nat) :
    c.play (first ++ second) = (c.play first).play second := List.foldl_append

theorem turn_eq (c : Crew α) {i : Nat} {work : Work α} (hi : c.works[i]? = some work) :
    c.turn i = ⟨c.works.set i (work.step c.shared).1, (work.step c.shared).2⟩ := by
  rw [turn, hi]

/-- Who is done, or is not there, does nothing in a turn. -/
theorem turn_eq_self (c : Crew α) {i : Nat}
    (hi : ∀ work, c.works[i]? = some work → ∃ result, work = .done result) : c.turn i = c := by
  cases hw : c.works[i]? with
  | none => rw [turn, hw]
  | some work =>
    obtain ⟨result, rfl⟩ := hi work hw
    rw [c.turn_eq hw, Work.step]
    obtain ⟨hlen, hw⟩ := List.getElem?_eq_some_iff.mp hw
    rw [← hw, List.set_getElem_self]

/-- No work is begun or dropped on the way. -/
@[simp] theorem length_turn (c : Crew α) (i : Nat) : (c.turn i).works.length = c.works.length := by
  unfold turn
  split
  · rfl
  · exact List.length_set

@[simp] theorem length_play (c : Crew α) (schedule : List Nat) :
    (c.play schedule).works.length = c.works.length := by
  induction schedule generalizing c with
  | nil => rfl
  | cons i schedule ih => rw [play_cons, ih, length_turn]

end Crew

end EventPipeline.Work
