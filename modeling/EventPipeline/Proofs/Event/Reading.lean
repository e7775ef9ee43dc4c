import EventPipeline.Event.Json
import EventPipeline.Proofs.Instant.Text
import EventPipeline.Proofs.Json.Typed

/-!
What holds of events because they were read: a payload is a sound tree that may still be put one
level deeper, times are times of the calendar, and extensions are in order. A valid context has
extensions with names of their own and scalars as values.
-/

namespace EventPipeline

open Json

/-- Contexts as they are read from texts. -/
structure Context.Sound (c : Context) : Prop where
  time : ∀ t, c.time = some t → t.Proper
  sorted : Keyed.Sorted c.extensions
  values : ∀ x ∈ c.extensions, x.2.Sound

namespace Context

theorem proper_of_timeOfNode {n : Node} {t : Instant} (h : timeOfNode n = .ok t) : t.Proper := by
  rw [timeOfNode.eq_def] at h
  split at h
  · split at h
    · next ht => exact Instant.proper_of_ofText? (Except.ok.inj h ▸ ht)
    · cases h
  · cases h

theorem Sound.field {c c' : Context} (hc : c.Sound) {field : Field Node Context}
    (hf : field ∈ schema.fields) {n : Node} (h : field.read n c = .ok c') : c'.Sound := by
  simp only [schema, attributes, List.mem_append, List.mem_cons, List.not_mem_nil, or_false] at hf
  rcases hf with (rfl | rfl | rfl | rfl | rfl | rfl | rfl | rfl) | rfl
  case inl.inr.inr.inr.inr.inr.inr.inr =>
    obtain ⟨time, htime, h⟩ := bind_eq_ok.mp h
    cases h
    refine ⟨fun t ht => ?_, hc.sorted, hc.values⟩
    rcases of_asOptional htime with rfl | ⟨t', rfl, ht'⟩
    · cases ht
    · cases ht
      exact proper_of_timeOfNode ht'
  case inr =>
    obtain ⟨extensions, hextensions, h⟩ := bind_eq_ok.mp h
    cases h
    obtain ⟨hsorted, hvalues⟩ := sound_of_asMap hextensions
    exact ⟨hc.time, hsorted, hvalues⟩
  all_goals
    obtain ⟨value, -, h⟩ := bind_eq_ok.mp h
    cases h
    exact ⟨hc.time, hc.sorted, hc.values⟩

theorem sound_of_ofNode {n : Node} {c : Context} (h : ofNode n = .ok c) : c.Sound := by
  refine asRecord_induct (P := Sound) (fun field hf n c c' hc => hc.field hf)
    (fun name n c c' hc hread => ?_) ?_ h
  · obtain ⟨-, -, hread⟩ := bind_eq_ok.mp hread
    cases hread
    exact hc
  · exact ⟨nofun, .nil, nofun⟩

theorem extensionFault?_eq_none_iff {name : String} {value : Tree} :
    extensionFault? name value = none ↔
      isExtensionName name = true ∧ value.isContainer = false := by
  unfold extensionFault?
  cases isExtensionName name <;> cases value.isContainer <;> simp

theorem fault?_eq_none_iff {c : Context} :
    c.fault? = none ↔ c.specversion = supportedVersion ∧ c.id ≠ "" ∧ c.source ≠ "" ∧
      c.type ≠ "" ∧ ∀ x ∈ c.extensions, isExtensionName x.1 = true ∧ x.2.isContainer = false := by
  have hextensions : (c.extensions.findSome? fun x => extensionFault? x.1 x.2) = none ↔
      ∀ x ∈ c.extensions, isExtensionName x.1 = true ∧ x.2.isContainer = false := by
    simp only [List.findSome?_eq_none_iff, extensionFault?_eq_none_iff]
  rw [← hextensions]
  unfold fault?
  grind

/-- A context is valid when it has the one version, no required attribute is empty, and its
extensions are scalars under names that they may have. -/
theorem validate_eq_ok_iff {c : Context} :
    c.validate = .ok () ↔ c.specversion = supportedVersion ∧ c.id ≠ "" ∧ c.source ≠ "" ∧
      c.type ≠ "" ∧ ∀ x ∈ c.extensions, isExtensionName x.1 = true ∧ x.2.isContainer = false := by
  rw [← fault?_eq_none_iff, validate]
  cases c.fault? <;> simp

theorem of_validate {c : Context} (h : c.validate = .ok ()) :
    ∀ x ∈ c.extensions, isExtensionName x.1 = true ∧ x.2.isContainer = false :=
  (validate_eq_ok_iff.mp h).2.2.2.2

end Context

namespace Event

/-- Parts make an event when the context is valid. -/
theorem ofParts_eq_ok_iff {c : Context} {data : Option Tree} {e : Event} :
    ofParts c data = .ok e ↔ c.validate = .ok () ∧ e = { c with
      datacontenttype := some Context.jsonContentType
      extensions := c.extensions.filter fun (_, value) => !value.isNull
      data } := by
  constructor
  · intro h
    obtain ⟨⟨⟩, hvalid, h⟩ := bind_eq_ok.mp h
    exact ⟨hvalid, (Except.ok.inj h).symm⟩
  · rintro ⟨hvalid, rfl⟩
    exact bind_eq_ok.mpr ⟨(), hvalid, rfl⟩

/-- A payload stands one level below its event, so it is not as deep as a text may be. -/
theorem payload_of_read {s : String} {e : Event} (h : read s = .ok e) :
    e.payload.Sound ∧ e.payload.depth ≤ nestingLimit - 1 := by
  obtain ⟨n, hn⟩ := of_readTyped h
  refine asObject_induct (P := fun e : Event => e.payload.Sound ∧ e.payload.depth ≤ nestingLimit - 1)
    (fun field hf n e e' he hread => ?_) (fun name n e e' he hread => ?_)
    ?_ hn
  · rcases List.mem_append.mp hf with hf | hf
    · obtain ⟨f, -, rfl⟩ := List.mem_map.mp hf
      obtain ⟨context, -, hread⟩ := bind_eq_ok.mp hread
      cases hread
      exact he
    · rw [List.mem_singleton.mp hf] at hread
      obtain ⟨data, hdata, hread⟩ := bind_eq_ok.mp hread
      cases hread
      rcases of_asOptional hdata with rfl | ⟨t, rfl, ht⟩
      · exact ⟨.null, Nat.zero_le _⟩
      · exact sound_of_asTree ht
  · obtain ⟨value, -, hread⟩ := bind_eq_ok.mp hread
    cases hread
    exact he
  · exact ⟨.null, Nat.zero_le _⟩

theorem context_of_read {s : String} {e : Event} (h : read s = .ok e) : e.toContext.Sound := by
  obtain ⟨n, hn⟩ := of_readTyped h
  refine asObject_induct (P := fun e : Event => e.toContext.Sound)
    (fun field hf n e e' he hread => ?_) (fun name n e e' he hread => ?_) ?_ hn
  · rcases List.mem_append.mp hf with hf | hf
    · obtain ⟨f, hf', rfl⟩ := List.mem_map.mp hf
      obtain ⟨context, hcontext, hread⟩ := bind_eq_ok.mp hread
      cases hread
      exact he.field (List.mem_append_left _ hf') hcontext
    · rw [List.mem_singleton.mp hf] at hread
      obtain ⟨data, -, hread⟩ := bind_eq_ok.mp hread
      cases hread
      exact he
  · obtain ⟨value, hvalue, hread⟩ := bind_eq_ok.mp hread
    cases hread
    refine ⟨he.time, Keyed.sorted_insert he.sorted name value, fun x hx => ?_⟩
    rcases Keyed.mem_insert hx with rfl | hx
    · exact (sound_of_asTree hvalue).1
    · exact he.values x hx
  · exact ⟨nofun, .nil, nofun⟩

end Event

end EventPipeline
