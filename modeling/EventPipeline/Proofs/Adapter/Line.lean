import EventPipeline.Adapter.Basic
import EventPipeline.Proofs.Handler.Payload
import EventPipeline.Proofs.Handler.Rebuild
import EventPipeline.Proofs.Json.Printed
import EventPipeline.Proofs.Text.Lines

/-!
The line that is written for a transformed event is one line, and is read back as that event, up to
the doubles in it (`Handler.line_read`), unless the payload is as deep as a text may be.
-/

namespace EventPipeline

open Json

namespace Event

/-- What is made of a context that was read, and of a payload that was read, has a text. -/
theorem regular_of_ofParts {c : Context} (hc : c.Sound) {data : Option Tree}
    (hd : ∀ t, data = some t → t.Sound) {e : Event} (h : ofParts c data = .ok e) : e.Regular := by
  obtain ⟨hvalid, rfl⟩ := ofParts_eq_ok_iff.mp h
  have hextensions := Context.of_validate hvalid
  refine ⟨hc.time, hc.sorted.sublist List.filter_sublist, fun x hx => ?_, fun x hx => ?_, hd⟩
  · exact (hextensions x (List.mem_filter.mp hx).1).1
  · have hx := (List.mem_filter.mp hx).1
    exact ⟨hc.values x hx, (hextensions x hx).2⟩

theorem text_line {e : Event} (h : e.Regular) : '\n' ∉ e.text.toList ∧ '\r' ∉ e.text.toList :=
  ⟨not_mem_text h.finite (by decide), not_mem_text h.finite (by decide)⟩

theorem allBlank_text {e : Event} (h : e.Regular) : Text.allBlank e.text = false := by
  obtain ⟨cs, hcs⟩ : ∃ cs, e.tree.chars = '\x7b' :: cs := ⟨_, rfl⟩
  rw [Text.allBlank, text, toList_text h.finite, hcs]
  rfl

end Event

namespace Handler

variable {h : Handler} {e : Event} {s : Shared} {out : Transformed}

theorem regular_of_transform (hout : ((h.transform e).run s).1 = .ok out) :
    out.event.Regular ∧ out.event.payload.depth ≤ nestingLimit := by
  obtain ⟨context, bytes, errors, hrebuild, -⟩ := h.transform_eq_rebuild_of (hasJsonData_of_ok hout) s
  obtain ⟨c, t, hc, ht, hevent, -⟩ := rebuild_eq_ok_iff.mp (hrebuild.symm.trans hout)
  obtain ⟨n, hn⟩ := of_decodeTyped hc
  obtain ⟨hsound, hdepth⟩ := sound_of_decode ht
  have hdata : ∀ t', keepAbsent e.data.isSome t = some t' → t'.Sound ∧ t'.depth ≤ nestingLimit :=
    fun t' ht' => of_keepAbsent ht' ▸ ⟨hsound, hdepth⟩
  refine ⟨Event.regular_of_ofParts (Context.sound_of_ofNode hn) (fun t' ht' => (hdata t' ht').1)
    hevent, ?_⟩
  obtain ⟨-, hevent⟩ := Event.ofParts_eq_ok_iff.mp hevent
  rw [hevent]
  cases hk : keepAbsent e.data.isSome t with
  | none => exact Nat.zero_le _
  | some t' => exact (hdata t' hk).2

/--
What is written for a transformed event is one line, whose text is read as the event again, and an
event without doubles as it was. A null payload is read as none. A payload as deep as a text may be
is one level too deep inside the event, so that the line is no event.
-/
theorem line_read (h : Handler) (e : Event) (s : Shared) {out : Transformed}
    (hout : ((h.transform e).run s).1 = .ok out) :
    let bytes := (Adapter.line out.event).toUTF8
    (bytes.toList.count 10 = 1 ∧ bytes.toList.getLast? = some 10 ∧ 13 ∉ bytes.toList) ∧
    (Adapter.readable (Text.lines bytes) = ([out.event.text], false) ∧
      Text.allBlank out.event.text = false) ∧
    (out.event.payload.depth < nestingLimit → Event.read out.event.text =
      .ok { out.event.reread with data := out.event.reread.data.filter fun t => !t.isNull }) ∧
    (out.event.isShort = true → out.event.reread = out.event) ∧
    (¬ out.event.payload.depth < nestingLimit →
      out.event.payload.depth = nestingLimit ∧ Event.read out.event.text = .error .malformed) := by
  intro bytes
  obtain ⟨hregular, hdepth⟩ := regular_of_transform hout
  obtain ⟨hfeed, hreturn⟩ := Event.text_line hregular
  have hbytes : bytes.toList = out.event.text.toUTF8.toList ++ [10] := Text.toList_toUTF8_line _
  have hread := Event.read_text hregular
  refine ⟨⟨?_, ?_, ?_⟩, ⟨?_, Event.allBlank_text hregular⟩, fun hd => ?_,
    Event.reread_of_isShort, fun hd => ⟨?_, ?_⟩⟩
  · have hten : 10 ∉ out.event.text.toUTF8.toList := fun hm =>
      hfeed (Text.mem_of_mem_toUTF8 hm (by decide))
    rw [hbytes, List.count_append, List.count_eq_zero.mpr hten]
    rfl
  · rw [hbytes, List.getLast?_concat]
  · rw [hbytes]
    intro hm
    rcases List.mem_append.mp hm with hm | hm
    · exact hreturn (Text.mem_of_mem_toUTF8 hm (by decide))
    · exact absurd (List.mem_singleton.mp hm) (by decide)
  · have hlines : Text.lines bytes = [out.event.text.toUTF8] := Text.lines_toUTF8 hfeed hreturn
    rw [hlines, Adapter.readable, fromUTF8?_toUTF8]
    rfl
  · rw [hread, if_pos (Nat.le_sub_one_of_lt hd)]
  · exact Nat.le_antisymm hdepth (Nat.le_of_not_lt hd)
  · have hpos : 0 < nestingLimit := by decide
    rw [hread, if_neg (by omega)]

/-- A payload is deleted; the event that is left has a time and an extension. -/
theorem line_read_deleted :
    let h : Handler := ⟨⟨[]⟩, ⟨[.delete ⟨"", ".", ""⟩]⟩⟩
    let e : Event := { Event.ofAttributes "1" "s" "t" with
      time := some ⟨⟨2024, 2, 29⟩, 754, 60, 120000000⟩
      extensions := [("urgent", .bool true)]
      data := some (.text "a") }
    ∃ out, ((h.transform e).run .fresh).1 = .ok out ∧ out.event.data = some .null ∧
      Event.read out.event.text = .ok { e with data := none } := by
  intro h e
  have hevent : ((h.transform e).run .fresh).1.toOption.map Transformed.event =
      some { e with data := some .null } := by decide +kernel
  cases hout : ((h.transform e).run .fresh).1 with
  | error error =>
    rw [hout] at hevent
    cases hevent
  | ok out =>
    rw [hout] at hevent
    obtain ⟨event, error⟩ := out
    obtain rfl : event = { e with data := some .null } := Option.some.inj hevent
    exact ⟨_, rfl, rfl, (h.line_read e .fresh hout).2.2.1 (Nat.zero_lt_succ 126)⟩

/-- A payload that is as deep as an event may have it is moved one level down: the event is handed
on, and no event is read from what is written for it. -/
theorem line_read_lost :
    let h : Handler := ⟨⟨[]⟩, ⟨[.shift ⟨⟨[.key "list"]⟩, ⟨[.key "a", .key "b"]⟩, ""⟩]⟩⟩
    let e := Event.listing 124
    (Handler.ofTransforms [] [⟨.shift, [{ key := "list:a.b" }]⟩]).toOption = some h ∧
    Event.read e.text = .ok e ∧
    ∃ out, ((h.transform e).run .fresh).1 = .ok out ∧
      Event.read out.event.text = .error .malformed := by
  intro h e
  have hread : Event.read e.text = .ok e := Event.read_listing (by decide +kernel)
  have hjson : e.hasJsonData = true := by decide +kernel
  have hdata : e.payload.Sound := (Tree.sound_brackets 124).single "list"
  obtain ⟨hcontext, hholds⟩ := holds_of_main (h := h) rfl rfl hdata (by decide +kernel)
    (by decide +kernel) sound_fresh
  have hc : decodeTyped Context.ofNode (h.phasesOf e .fresh).context = .ok e.toContext := by
    rw [hcontext]
    decide +kernel
  have hout := transform_of_holds hjson hc hholds
  rw [if_pos (by decide +kernel)] at hout
  refine ⟨by decide +kernel, hread, _, hout, ?_⟩
  rw [Event.read_text (regular_of_transform hout).1]
  exact if_neg (by decide +kernel)

end Handler

end EventPipeline
