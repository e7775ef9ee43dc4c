import EventPipeline.Proofs.Event.Context

/-!
Events are read back from their texts, up to the doubles in them (`Event.read_text`), except that a
null payload is read as none, and that a payload as deep as a text may be is too deep inside its
event. An event without doubles is read as it was written (`Event.reread_of_isShort`).
-/

namespace EventPipeline

open Json

/-- Events that a text can show: times are times of the calendar, the extensions are scalars in
order under names that they may have, and the payload is a tree as it is read. -/
structure Event.Regular (e : Event) : Prop where
  time : ∀ t, e.time = some t → t.Proper
  sorted : Keyed.Sorted e.extensions
  names : ∀ x ∈ e.extensions, Context.isExtensionName x.1 = true
  values : ∀ x ∈ e.extensions, x.2.Sound ∧ x.2.isContainer = false
  data : ∀ t, e.data = some t → t.Sound

namespace Event

variable {e : Event}

/-- What is read of an event that was written, but for a null payload. -/
def reread (e : Event) : Event :=
  { e with toContext := e.toContext.reread, data := e.data.map Tree.reread }

/-- Whether all numbers in an event are short, as integers are. -/
def isShort (e : Event) : Bool := Tree.membersShort e.extensions && e.data.all Tree.isShort

theorem reread_of_isShort (h : e.isShort = true) : e.reread = e := by
  obtain ⟨hextensions, hdata⟩ := Bool.and_eq_true_iff.mp h
  have hdata' : e.data.map Tree.reread = e.data := by
    cases hd : e.data with
    | none => rfl
    | some t =>
      rw [hd] at hdata
      exact congrArg some (Tree.reread_of_isShort hdata)
  rw [reread, Context.reread_of_membersShort hextensions, hdata']

theorem Regular.finite (h : e.Regular) : e.tree.Finite := by
  refine .object fun m hm => ?_
  rcases List.mem_append.mp hm with hm | hm
  · rcases List.mem_append.mp hm with hm | hm
    · exact Context.attributeMembers_finite _ m hm
    · rw [Option.mem_toList, Option.map_eq_some_iff] at hm
      obtain ⟨t, ht, rfl⟩ := hm
      exact (h.data t ht).finite
  · exact (h.values m hm).1.finite

theorem read_text_eq (h : e.Regular) : read e.text = ofNode e.tree.node :=
  readTyped_text ofNode h.finite

/-- The fields of events. -/
theorem names_schema : schema.fields.map Field.name =
    ["specversion", "id", "source", "type", "datacontenttype", "dataschema", "subject", "time",
      "data"] := rfl

open Schema (Fills)

/-- Attributes fill the context of an event as they fill a context. -/
theorem fills_context {c c' : Context} {ms : List (String × Tree)}
    (h : Context.schema.Fills c ms c') (hms : ∀ m ∈ ms, m.1 ∈ Context.attributeNames)
    (data : Option Tree) : schema.Fills ⟨c, data⟩ ms ⟨c', data⟩ := by
  induction h with
  | nil c => exact .nil _
  | @cons name t ms field c c' c'' hf hr _ ih =>
    have hname : (Context.extensionsField.name == name) = false := by
      refine beq_eq_false_iff_ne.mpr fun hname => ?_
      have hmem : name ∈ Context.attributeNames := hms _ List.mem_cons_self
      rw [← hname] at hmem
      exact absurd hmem (by decide)
    have hattribute : Context.attributes.find? (fun field => field.name == name) = some field := by
      simpa only [Context.schema, List.find?_append, List.find?_cons, hname, List.find?_nil,
        Option.or_none] using hf
    have hfield : schema.fields.find? (fun field => field.name == name) =
        some (attributeField field) := by
      rw [schema, List.find?_append, List.find?_map]
      change ((Context.attributes.find? fun field => field.name == name).map attributeField).or _ = _
      rw [hattribute]
      rfl
    refine .cons hfield ?_ (ih fun m hm => hms m (List.mem_cons_of_mem _ hm))
    simp only [attributeField, hr]
    rfl

theorem fills_attributes (h : e.Regular) :
    schema.Fills {} e.attributeMembers { e with extensions := [], data := none } :=
  fills_context (Context.fills_attributes h.time)
    (fun _ hm => (Context.names_attributeMembers _).subset (List.mem_map_of_mem hm)) none

/-- The payload as a member. -/
def dataMember (e : Event) : List (String × Tree) := (e.data.map fun t => ("data", t)).toList

/-- The event without extensions, its payload read back. -/
def core (e : Event) : Event :=
  { e with extensions := [], data := e.reread.data.filter fun t => !t.isNull }

theorem fills_core (h : e.Regular) (hd : e.payload.depth ≤ nestingLimit - 1) :
    schema.Fills {} (e.attributeMembers ++ e.dataMember) e.core := by
  refine (fills_attributes h).append (.optional rfl (fun hn => ?_) fun t ht => ?_)
  · rw [core, reread, hn]
    rfl
  · have hdepth : t.depth ≤ nestingLimit - 1 := by
      rwa [payload, ht] at hd
    have hread : t.node.asOptional (Node.asTree (nestingLimit - 1)) =
        .ok (e.reread.data.filter fun t => !t.isNull) := by
      rw [asOptional_node, asTree_node (h.data t ht), if_pos hdepth, reread, ht]
      cases t <;> rfl
    simp only [hread]
    rfl

/-- The members before the extensions have the names of fields, in the order of the fields. -/
theorem names_sublist (e : Event) :
    ((e.attributeMembers ++ e.dataMember).map Prod.fst).Sublist (schema.fields.map Field.name) := by
  rw [List.map_append, dataMember]
  exact (Context.names_attributeMembers e.toContext).append (Context.sublist_optional _ _ _)

theorem names_nodup (e : Event) : ((e.attributeMembers ++ e.dataMember).map Prod.fst).Nodup :=
  (names_sublist e).nodup (names_schema ▸ by decide)

theorem required_mem {field : Field Node Event} (hf : field ∈ schema.fields)
    (hr : field.required = true) (e : Event) :
    field.name ∈ (e.attributeMembers ++ e.dataMember).map Prod.fst := by
  have hall : ∀ p ∈ schema.fields.map fun f => (f.name, f.required),
      p.2 = true → p.1 ∈ ["specversion", "id", "source", "type"] := by decide
  rw [List.map_append]
  exact List.mem_append_left _
    (Context.required_mem_attributeMembers (hall _ (List.mem_map_of_mem hf) hr) e.toContext)

theorem find?_extension {name : String} (h : Context.isExtensionName name = true) :
    schema.fields.find? (fun field => field.name == name) = none := by
  refine List.find?_eq_none.mpr fun field hf hname => ?_
  have hmem : name ∈ schema.fields.map Field.name := eq_of_beq hname ▸ List.mem_map_of_mem hf
  have hreserved : ∀ n ∈ schema.fields.map Field.name, n ∈ Context.reservedNames := by
    rw [names_schema]
    decide
  simp only [Context.isExtensionName, Bool.and_eq_true, Bool.not_eq_true', List.contains_eq_mem,
    decide_eq_false_iff_not] at h
  exact h.2 (hreserved name hmem)

/-- Extensions in order are added behind those that are there. -/
theorem foldMembers_extensions (seen : List String) {xs : List (String × Tree)}
    (hs : Keyed.Sorted (e.extensions ++ Tree.rereadMembers xs))
    (hn : ∀ x ∈ xs, Context.isExtensionName x.1 = true)
    (hv : ∀ x ∈ xs, x.2.Sound ∧ x.2.isContainer = false) :
    Node.foldMembers (fun name n draft => schema.member draft name n) ⟨seen, e⟩
      (Tree.memberNodes xs) =
        .ok ⟨seen, { e with extensions := e.extensions ++ Tree.rereadMembers xs }⟩ := by
  induction xs generalizing e with
  | nil =>
    rw [Tree.rereadMembers, List.append_nil]
    rfl
  | cons x xs ih =>
    obtain ⟨name, t⟩ := x
    obtain ⟨ht, hscalar⟩ := hv _ List.mem_cons_self
    have hread : t.node.asTree (nestingLimit - 1) = .ok t.reread := by
      rw [asTree_node ht, Tree.depth_eq_zero hscalar, if_pos (Nat.zero_le _)]
    have hlt : ∀ y ∈ e.extensions, y.1 < name := fun y hy =>
      (List.pairwise_append.mp hs).2.2 y hy _ List.mem_cons_self
    have hmember : schema.member ⟨seen, e⟩ name t.node =
        .ok ⟨seen, { e with extensions := e.extensions ++ [(name, t.reread)] }⟩ := by
      rw [Schema.member, find?_extension (hn _ List.mem_cons_self)]
      change (t.node.asTree (nestingLimit - 1) >>= fun t => pure (e.withExtension name t)) >>= _ = _
      rw [hread, ← Keyed.insert_of_lt hlt]
      rfl
    rw [Tree.memberNodes, Node.foldMembers, hmember]
    refine (ih ?_ (fun y hy => hn y (List.mem_cons_of_mem _ hy))
      fun y hy => hv y (List.mem_cons_of_mem _ hy)).trans ?_
    · rwa [List.append_assoc]
    · rw [List.append_assoc]
      rfl

theorem ofNode_node (h : e.Regular) (hd : e.payload.depth ≤ nestingLimit - 1) :
    ofNode e.tree.node = .ok { e.reread with data := e.reread.data.filter fun t => !t.isNull } := by
  have hfields := foldMembers_fills [] (fills_core h hd) (names_nodup e) fun _ _ => nofun
  let seen := ((e.attributeMembers ++ e.dataMember).map Prod.fst).reverse ++ []
  have hextensions := foldMembers_extensions seen (e := e.core)
    (Tree.sorted_rereadMembers h.sorted) h.names h.values
  have hcomplete : schema.complete ⟨seen, { e.core with extensions := e.reread.extensions }⟩ =
      .ok _ :=
    complete_eq fun field hf hr =>
      List.mem_append_left _ (List.mem_reverse.mpr (required_mem hf hr e))
  change Node.asObject schema {} (.object (Tree.memberNodes (e.attributeMembers ++ e.dataMember ++
    e.extensions)) true) = _
  rw [Tree.memberNodes_append, Node.asObject, foldMembers_append, hfields]
  change (Node.foldMembers _ _ _ >>= fun draft => Node.mustClose true >>= fun _ => _) = _
  rw [hextensions]
  exact hcomplete

theorem ofNode_node_deep (h : e.Regular) (hd : ¬ e.payload.depth ≤ nestingLimit - 1) :
    ofNode e.tree.node = .error .malformed := by
  cases hdata : e.data with
  | none =>
    rw [payload, hdata] at hd
    exact absurd (Nat.zero_le _) hd
  | some t =>
    rw [payload, hdata, Option.getD_some] at hd
    have hmember : e.dataMember = [("data", t)] := by
      rw [dataMember, hdata]
      rfl
    have hnodup := names_nodup e
    rw [List.map_append, hmember] at hnodup
    obtain ⟨hnames, -, hdisjoint⟩ := List.nodup_append.mp hnodup
    have hread : t.node.asOptional (Node.asTree (nestingLimit - 1)) = .error .malformed := by
      have hnull : t.isNull = false := by
        cases t with
        | null => exact absurd (Nat.zero_le _) hd
        | _ => rfl
      rw [asOptional_node, hnull, asTree_node (h.data t hdata), if_neg hd]
      rfl
    change (Tree.object (e.attributeMembers ++ e.dataMember ++ e.extensions)).node.asObject
      schema {} = _
    rw [hmember, List.append_assoc, List.singleton_append]
    refine asObject_error (fills_attributes h) hnames
      (fun hm => hdisjoint _ hm "data" List.mem_cons_self rfl) rfl ?_
    simp only [hread]
    rfl

/-- An event is read back from its text, unless its payload is as deep as a text may be. -/
theorem read_text (h : e.Regular) :
    read e.text =
      if e.payload.depth ≤ nestingLimit - 1 then
        .ok { e.reread with data := e.reread.data.filter fun t => !t.isNull }
      else .error .malformed := by
  rw [read_text_eq h]
  split
  · next hd => exact ofNode_node h hd
  · next hd => exact ofNode_node_deep h hd

end Event

end EventPipeline
