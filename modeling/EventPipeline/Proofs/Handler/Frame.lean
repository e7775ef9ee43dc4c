import EventPipeline.Proofs.Event.Text
import EventPipeline.Proofs.Handler.Rebuild

/-!
A pipeline without rules changes nothing that is not a double: an empty pipeline for payloads leaves
the payload as it was, and one for contexts the context, but for the label and for null extensions
(`Handler.transform_frame`).
-/

namespace EventPipeline

open Json

/-- The context that an event is handed on with when nothing is done to it: it is labelled as JSON,
and null extensions are left out. -/
def Context.relabelled (c : Context) : Context :=
  { c with
    datacontenttype := some jsonContentType
    extensions := c.extensions.filter fun (_, value) => !value.isNull }

/-- The extensions of a valid context are scalars. -/
theorem Context.membersDepth_of_validate {c : Context} (h : c.validate = .ok ()) :
    Tree.membersDepth c.extensions = 0 := by
  refine Nat.le_zero.mp (Tree.membersDepth_le_iff.mpr fun x hx => Nat.le_zero.mpr ?_)
  exact Tree.depth_eq_zero (of_validate h x hx).2

namespace Handler

variable {h : Handler} {e : Event} {text : String} {s : Shared} {out : Transformed}

theorem decode_payload (hread : Event.read text = .ok e) :
    decode (encode e.payload) = .ok e.payload.reread := by
  obtain ⟨hsound, hdepth⟩ := Event.payload_of_read hread
  rw [decode_encode hsound, if_pos (Nat.le_trans hdepth (Nat.sub_le _ _))]

theorem data_of_isEmpty (hread : Event.read text = .ok e) (hd : h.data.isEmpty = true)
    (hout : ((h.transform e).run s).1 = .ok out) : out.event.data = e.reread.data := by
  obtain ⟨context, data, errors, hrebuild, -, hdata, -⟩ :=
    h.transform_eq_rebuild_of (hasJsonData_of_ok hout) s
  obtain ⟨c, t, -, ht, hevent, -⟩ := rebuild_eq_ok_iff.mp (hrebuild.symm.trans hout)
  obtain ⟨-, hevent⟩ := Event.ofParts_eq_ok_iff.mp hevent
  rw [hdata hd, decode_payload hread] at ht
  rw [hevent, ← Except.ok.inj ht]
  exact keepAbsent_payload e

/-- A context that no rule was applied to is read back, if it is read at all. -/
theorem validate_of_isEmpty (hread : Event.read text = .ok e) (hc : h.context.isEmpty = true)
    (hout : ((h.transform e).run s).1 = .ok out) :
    e.toContext.validate = .ok () ∧ out.event.toContext = e.reread.toContext.relabelled := by
  obtain ⟨context, data, errors, hrebuild, hcontext, -⟩ :=
    h.transform_eq_rebuild_of (hasJsonData_of_ok hout) s
  obtain ⟨c, t, hc', -, hevent, -⟩ := rebuild_eq_ok_iff.mp (hrebuild.symm.trans hout)
  rw [hcontext hc, Context.decodeTyped_encode (Event.context_of_read hread)] at hc'
  split at hc'
  · obtain ⟨hvalid, hevent⟩ := Event.ofParts_eq_ok_iff.mp hevent
    cases hc'
    exact ⟨e.toContext.validate_reread ▸ hvalid, congrArg Event.toContext hevent⟩
  · cases hc'

/-- An event with a valid context that no rule is applied to is handed on. -/
theorem exists_of_isEmpty (hread : Event.read text = .ok e) (hjson : e.hasJsonData = true)
    (hc : h.context.isEmpty = true) (hd : h.data.isEmpty = true)
    (hvalid : e.toContext.validate = .ok ()) (s : Shared) :
    ∃ out, ((h.transform e).run s).1 = .ok out := by
  obtain ⟨context, data, errors, hrebuild, hcontext, hdata, -⟩ := h.transform_eq_rebuild_of hjson s
  have hroom : Tree.membersDepth e.extensions ≤ nestingLimit - 2 := by
    rw [Context.membersDepth_of_validate hvalid]
    exact Nat.zero_le _
  have hcontext' : decodeTyped Context.ofNode context = .ok e.toContext.reread := by
    rw [hcontext hc, Context.decodeTyped_encode (Event.context_of_read hread), if_pos hroom]
  have hdata' : decode data = .ok e.payload.reread := by rw [hdata hd, decode_payload hread]
  rw [← e.toContext.validate_reread] at hvalid
  exact ⟨⟨_, _⟩, hrebuild.trans (rebuild_eq_ok_iff.mpr ⟨_, _, hcontext', hdata',
    Event.ofParts_eq_ok_iff.mpr ⟨hvalid, rfl⟩, rfl⟩)⟩

theorem error_of_isEmpty (hc : h.context.isEmpty = true) (hd : h.data.isEmpty = true)
    (hout : ((h.transform e).run s).1 = .ok out) : out.error = none := by
  obtain ⟨context, data, errors, hrebuild, -, -, herrors⟩ :=
    h.transform_eq_rebuild_of (hasJsonData_of_ok hout) s
  obtain ⟨c, t, -, -, -, herror⟩ := rebuild_eq_ok_iff.mp (hrebuild.symm.trans hout)
  rw [herror, herrors hc hd]
  rfl

/--
Without rules for payloads, what is handed on has the payload of the event; without rules for
contexts, it has the context of the event, labelled as JSON and without null extensions. Both are
written and read on the way, of which only doubles can tell. Without any rules, the event is handed
on, and with no error, exactly when its context is valid.
-/
theorem transform_frame (h : Handler) (hread : Event.read text = .ok e)
    (hjson : e.hasJsonData = true) (s : Shared) :
    (h.data.isEmpty = true → ∀ out, ((h.transform e).run s).1 = .ok out →
      out.event.data = e.reread.data) ∧
    (h.context.isEmpty = true → ∀ out, ((h.transform e).run s).1 = .ok out →
      out.event.toContext = e.reread.toContext.relabelled) ∧
    (e.isShort = true → e.reread = e) ∧
    (h.context.isEmpty = true → h.data.isEmpty = true →
      ((∃ out, ((h.transform e).run s).1 = .ok out) ↔ e.toContext.validate = .ok ()) ∧
      ∀ out, ((h.transform e).run s).1 = .ok out → out.error = none) := by
  refine ⟨fun hd out hout => data_of_isEmpty hread hd hout,
    fun hc out hout => (validate_of_isEmpty hread hc hout).2, Event.reread_of_isShort,
    fun hc hd => ⟨⟨fun ⟨out, hout⟩ => (validate_of_isEmpty hread hc hout).1, fun hvalid => ?_⟩,
      fun out hout => error_of_isEmpty hc hd hout⟩⟩
  exact exists_of_isEmpty hread hjson hc hd hvalid s

/-- An event with a null extension is given a subject, loses its payload, and is left alone. -/
theorem transform_frame_labelled :
    let e : Event := { Event.ofAttributes "1" "s" "t" with
      extensions := [("urgent", .null)]
      data := some (.number (.integer ⟨3, by decide, by decide⟩)) }
    let naming : Handler := ⟨⟨[.add ⟨⟨[.key "subject"]⟩, "a"⟩]⟩, ⟨[]⟩⟩
    let deleting : Handler := ⟨⟨[]⟩, ⟨[.delete ⟨"", ".", ""⟩]⟩⟩
    let idle : Handler := ⟨⟨[]⟩, ⟨[]⟩⟩
    (Event.read e.text = .ok e ∧ e.hasJsonData = true ∧ e.isShort = true) ∧
    (∃ out, ((naming.transform e).run .fresh).1 = .ok out ∧ out.event.subject = some "a" ∧
      out.event.data = e.data) ∧
    (∃ out, ((deleting.transform e).run .fresh).1 = .ok out ∧ out.event.data = some .null ∧
      out.event.toContext = { e.toContext with extensions := [] }) ∧
    ∃ out, ((idle.transform e).run .fresh).1 = .ok out ∧ out.error = none := by
  intro e naming deleting idle
  have hread : Event.read e.text = .ok e := by decide +kernel
  have hjson : e.hasJsonData = true := by decide +kernel
  have hnamed : ((naming.transform e).run .fresh).1.toOption.map (·.event.subject) =
      some (some "a") := by decide +kernel
  have hdeleted : ((deleting.transform e).run .fresh).1.toOption.map (·.event.data) =
      some (some .null) := by decide +kernel
  obtain ⟨named, hnamed, hsubject⟩ := Option.map_eq_some_iff.mp hnamed
  obtain ⟨deleted, hdeleted, hdata⟩ := Option.map_eq_some_iff.mp hdeleted
  have hnamed := eq_ok_of_toOption hnamed
  have hdeleted := eq_ok_of_toOption hdeleted
  have hpayload := (naming.transform_frame hread hjson .fresh).1 rfl named hnamed
  obtain ⟨-, hcontext, hshort, -⟩ := deleting.transform_frame hread hjson .fresh
  have hcontext := hcontext rfl deleted hdeleted
  rw [hshort rfl] at hpayload hcontext
  obtain ⟨hout, hnone⟩ := (idle.transform_frame hread hjson .fresh).2.2.2 rfl rfl
  obtain ⟨out, hout⟩ := hout.mpr rfl
  exact ⟨⟨hread, hjson, rfl⟩, ⟨named, hnamed, hsubject, hpayload⟩,
    ⟨deleted, hdeleted, hdata, hcontext⟩, out, hout, hnone out hout⟩

end Handler

end EventPipeline
