import EventPipeline.Proofs.Event.Text

/-!
Events that are made of parts are well-formed (`Event.wellFormed_of_ofParts`), and a well-formed
event is made of its own parts again (`Event.WellFormed.ofParts`). No two members of its text have
one name (`Event.Regular.names_nodup`).
-/

namespace EventPipeline

/-- Events as the standard has them, with the label that every forwarded event has: no required
attribute is empty, and the extensions are scalars, other than null, under names of lower-case
letters and digits that nothing else in an event has. -/
structure Event.WellFormed (e : Event) : Prop where
  specversion : e.specversion = "1.0"
  id : e.id ≠ ""
  source : e.source ≠ ""
  type : e.type ≠ ""
  datacontenttype : e.datacontenttype = some "application/json"
  names : ∀ x ∈ e.extensions, x.1 ≠ "" ∧ ∀ c ∈ x.1.toList, c.isLower ∨ c.isDigit
  unreserved : ∀ x ∈ e.extensions,
    x.1 ∉ Context.attributeNames ∧ x.1 ≠ "data" ∧ x.1 ≠ "data_base64"
  values : ∀ x ∈ e.extensions, x.2.isNull = false ∧ x.2.isContainer = false

theorem Context.isNameChar_iff {c : Char} : isNameChar c = true ↔ c.isLower ∨ c.isDigit := by
  rw [isNameChar, Bool.or_eq_true]
  rfl

theorem Context.isExtensionName_iff {name : String} :
    isExtensionName name = true ↔
      (name ≠ "" ∧ ∀ c ∈ name.toList, c.isLower ∨ c.isDigit) ∧
        name ∉ attributeNames ∧ name ≠ "data" ∧ name ≠ "data_base64" := by
  have hreserved : reservedNames = attributeNames ++ ["data", "data_base64"] := rfl
  simp only [isExtensionName, hreserved, Bool.and_eq_true, bne_iff_ne, List.all_eq_true,
    isNameChar_iff, Bool.not_eq_true', List.contains_eq_mem, decide_eq_false_iff_not,
    List.mem_append, List.mem_cons, List.not_mem_nil, or_false, not_or]

namespace Event

open Json

variable {e : Event}

theorem wellFormed_of_ofParts {c : Context} {data : Option Tree} (h : ofParts c data = .ok e) :
    e.WellFormed := by
  obtain ⟨hvalid, rfl⟩ := ofParts_eq_ok_iff.mp h
  obtain ⟨hversion, hid, hsource, htype, hextensions⟩ := Context.validate_eq_ok_iff.mp hvalid
  have hkept : ∀ x ∈ c.extensions.filter fun x => !x.2.isNull,
      Context.isExtensionName x.1 = true ∧ x.2.isNull = false ∧ x.2.isContainer = false := by
    intro x hx
    obtain ⟨hx, hnull⟩ := List.mem_filter.mp hx
    exact ⟨(hextensions x hx).1, by simpa using hnull, (hextensions x hx).2⟩
  exact {
    specversion := hversion
    id := hid
    source := hsource
    type := htype
    datacontenttype := rfl
    names := fun x hx => (Context.isExtensionName_iff.mp (hkept x hx).1).1
    unreserved := fun x hx => (Context.isExtensionName_iff.mp (hkept x hx).1).2
    values := fun x hx => (hkept x hx).2 }

/-- Nothing has to be left out of a well-formed event, and its label stays. -/
theorem WellFormed.ofParts (h : e.WellFormed) : ofParts e.toContext e.data = .ok e := by
  refine ofParts_eq_ok_iff.mpr ⟨Context.validate_eq_ok_iff.mpr ⟨h.specversion, h.id, h.source,
    h.type, fun x hx => ⟨?_, (h.values x hx).2⟩⟩, ?_⟩
  · exact Context.isExtensionName_iff.mpr ⟨h.names x hx, h.unreserved x hx⟩
  · have hkept : (e.extensions.filter fun x => !x.2.isNull) = e.extensions :=
      List.filter_eq_self.mpr fun x hx => by simp [(h.values x hx).1]
    change e = { e with
      datacontenttype := some "application/json"
      extensions := e.extensions.filter fun x => !x.2.isNull }
    rw [hkept, ← h.datacontenttype]

/-- The names of an event's members differ: the extensions have names of their own, and are in
order. -/
theorem Regular.names_nodup (h : e.Regular) :
    ((e.attributeMembers ++ e.dataMember ++ e.extensions).map Prod.fst).Nodup := by
  rw [List.map_append]
  refine (Event.names_nodup e).append (Keyed.nodup_keys h.sorted) ?_
  intro name hname hextension
  obtain ⟨x, hx, rfl⟩ := List.mem_map.mp hextension
  have hfield : x.1 ∈ schema.fields.map Field.name := (names_sublist e).subset hname
  obtain ⟨-, hattribute, hdata, -⟩ := Context.isExtensionName_iff.mp (h.names x hx)
  have hfields : schema.fields.map Field.name = Context.attributeNames ++ ["data"] := names_schema
  rw [hfields, List.mem_append, List.mem_singleton] at hfield
  exact hfield.elim hattribute hdata

/-- The text of an event is an object whose members have different names. -/
theorem Regular.ofChars_text (h : e.Regular) :
    ∃ members, Document.ofChars e.text.toList = ⟨.object members true, true⟩ ∧
      (members.map Prod.fst).Nodup := by
  refine ⟨Tree.memberNodes (e.attributeMembers ++ e.dataMember ++ e.extensions), ?_, ?_⟩
  · rw [text, toList_text h.finite, Document.ofChars_chars h.finite]
    rfl
  · rw [Tree.names_memberNodes]
    exact h.names_nodup.map (Option.some_injective _)

end Event

end EventPipeline
