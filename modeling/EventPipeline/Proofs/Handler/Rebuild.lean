import EventPipeline.Handler
import EventPipeline.Proofs.Event.Reading

/-!
How an event is put together again. What a handler hands on is made of bytes of a context and of a
payload (`Handler.transform_eq_rebuild_of`), which could both be read, and of which the context is
valid (`Handler.rebuild_eq_ok_iff`).
-/

namespace EventPipeline

open Json

namespace Handler

variable {h : Handler} {e : Event}

theorem of_keepAbsent {hadData : Bool} {t t' : Tree} (h : keepAbsent hadData t = some t') :
    t' = t := by
  unfold keepAbsent at h
  split at h
  · cases h
  · exact (Option.some.inj h).symm

theorem keepAbsent_payload (e : Event) :
    keepAbsent e.data.isSome e.payload.reread = e.data.map Tree.reread := by
  rw [Event.payload]
  cases e.data <;> rfl

theorem rebuild_eq_ok_iff {hadData : Bool} {context data : ByteArray} {errors : List Error}
    {out : Transformed} :
    rebuild hadData context data errors = .ok out ↔
      ∃ c t, decodeTyped Context.ofNode context = .ok c ∧ decode data = .ok t ∧
        Event.ofParts c (keepAbsent hadData t) = .ok out.event ∧
        out.error = Error.collect errors := by
  constructor
  · intro h
    obtain ⟨c, hc, h⟩ := bind_eq_ok.mp h
    obtain ⟨t, ht, h⟩ := bind_eq_ok.mp h
    obtain ⟨event, hevent, h⟩ := bind_eq_ok.mp h
    cases h
    exact ⟨c, t, mapError_eq_ok_iff.mp hc, mapError_eq_ok_iff.mp ht, hevent, rfl⟩
  · rintro ⟨c, t, hc, ht, hevent, herror⟩
    obtain ⟨event, error⟩ := out
    subst herror
    exact bind_eq_ok.mpr ⟨c, mapError_eq_ok_iff.mpr hc,
      bind_eq_ok.mpr ⟨t, mapError_eq_ok_iff.mpr ht, bind_eq_ok.mpr ⟨event, hevent, rfl⟩⟩⟩

/-- What an event comes to is put together of the bytes that the phases come to. A pipeline
without rules leaves its bytes as they were, and has no errors. -/
theorem transform_eq_rebuild_of (h : Handler) (hjson : e.hasJsonData = true) (s : Shared) :
    ∃ context data errors,
      ((h.transform e).run s).1 = rebuild e.data.isSome context data errors ∧
      (h.context.isEmpty = true → context = encode e.toContext.tree) ∧
      (h.data.isEmpty = true → data = encode e.payload) ∧
      (h.context.isEmpty = true → h.data.isEmpty = true → errors = []) := by
  rw [h.run_transform_of_json hjson]
  simp only [runPhases, Work.run_bind, Work.run]
  refine ⟨_, _, _, rfl, fun hc => ?_, fun hd => ?_, fun hc hd => ?_⟩
  · simp only [Pipeline.apply_of_isEmpty hc, Work.run]
  · simp only [Pipeline.apply_of_isEmpty hd, Work.run]
  · simp only [Pipeline.apply_of_isEmpty hc, Pipeline.apply_of_isEmpty hd, Work.run]
    rfl

end Handler

end EventPipeline
