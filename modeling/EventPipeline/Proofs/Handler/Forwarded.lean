import EventPipeline.Proofs.Adapter.Line
import EventPipeline.Proofs.Event.WellFormed

/-!
What a handler hands on is a well-formed event (`Handler.forwarded_wellFormed`), whatever the
rules have made of its context.
-/

namespace EventPipeline

open Json

namespace Handler

variable {h : Handler} {e : Event} {s : Shared} {out : Transformed}

theorem wellFormed_of_transform (hout : ((h.transform e).run s).1 = .ok out) :
    out.event.WellFormed := by
  obtain ⟨context, data, errors, hrebuild, -⟩ :=
    h.transform_eq_rebuild_of (hasJsonData_of_ok hout) s
  obtain ⟨c, t, -, -, hevent, -⟩ := rebuild_eq_ok_iff.mp (hrebuild.symm.trans hout)
  exact Event.wellFormed_of_ofParts hevent

/--
What is handed on is a well-formed event. Its text is an object with members of different names,
and the event is made of its own context and payload again.
-/
theorem forwarded_wellFormed (h : Handler) (e : Event) (s : Shared) {out : Transformed}
    (hout : ((h.transform e).run s).1 = .ok out) :
    out.event.WellFormed ∧
    (∃ members, Document.ofChars out.event.text.toList = ⟨.object members true, true⟩ ∧
      (members.map Prod.fst).Nodup) ∧
    Event.ofParts out.event.toContext out.event.data = .ok out.event := by
  have hwell := wellFormed_of_transform hout
  exact ⟨hwell, (regular_of_transform hout).1.ofChars_text, hwell.ofParts⟩

/-- A rule writes an extension, and the null extension that the event had is left out. -/
theorem forwarded_wellFormed_levelled :
    let h : Handler := ⟨⟨[.add ⟨⟨[.key "Extensions", .key "level"]⟩, "high"⟩]⟩, ⟨[]⟩⟩
    let e : Event := { Event.ofAttributes "1" "s" "t" with
      datacontenttype := none
      extensions := [("urgent", .null)] }
    (Handler.ofTransforms [⟨.add, [{ key := "Extensions.level", value := "high" }]⟩] []).toOption =
      some h ∧
    ∃ out, ((h.transform e).run .fresh).1 = .ok out ∧
      out.event.extensions = [("level", .text "high")] ∧ out.event.WellFormed ∧
      Event.ofParts out.event.toContext out.event.data = .ok out.event := by
  intro h e
  have hextensions : ((h.transform e).run .fresh).1.toOption.map (·.event.extensions) =
      some [("level", .text "high")] := by decide +kernel
  obtain ⟨out, hout, hextensions⟩ := Option.map_eq_some_iff.mp hextensions
  have hout := eq_ok_of_toOption hout
  obtain ⟨hwell, -, hparts⟩ := h.forwarded_wellFormed e .fresh hout
  exact ⟨by decide +kernel, out, hout, hextensions, hwell, hparts⟩

end Handler

end EventPipeline
