import EventPipeline.Proofs.Event.Reading
import EventPipeline.Proofs.Json.Record

/-!
Contexts are read back from their bytes, up to the doubles in them (`Context.decodeTyped_encode`),
unless their extensions nest too deep for texts that have them two levels down.
-/

namespace EventPipeline

open Json
open Schema (Fills)

namespace Context

variable {c : Context}

/-- What is read of a context that was written. -/
def reread (c : Context) : Context := { c with extensions := Tree.rereadMembers c.extensions }

theorem reread_of_membersShort (h : Tree.membersShort c.extensions = true) : c.reread = c := by
  rw [reread, Tree.rereadMembers_of_membersShort h]

/-- Whether a context is valid is not a matter of the doubles in it. -/
theorem validate_reread (c : Context) : c.reread.validate = c.validate := by
  have hextensions : (c.reread.extensions.findSome? fun x => extensionFault? x.1 x.2) =
      c.extensions.findSome? fun x => extensionFault? x.1 x.2 := by
    rw [reread, Tree.rereadMembers_eq_map, List.findSome?_map]
    congr 1
    funext x
    simp only [Function.comp_apply, extensionFault?, Tree.isContainer_reread]
  have hfault : c.reread.fault? = c.fault? := by
    simp only [fault?, hextensions]
    rfl
  rw [validate, hfault, validate]

theorem attributeMembers_finite (c : Context) : ∀ m ∈ c.attributeMembers, m.2.Finite := by
  intro m hm
  obtain ⟨s, hs⟩ : ∃ s, m.2 = Tree.text s := by
    simp only [attributeMembers, textMember, List.mem_append, List.mem_cons,
      List.not_mem_nil, or_false, Option.mem_toList, Option.map_eq_some_iff] at hm
    rcases hm with ((((rfl | rfl | rfl | rfl) | ⟨s, -, rfl⟩) | ⟨s, -, rfl⟩) | ⟨s, -, rfl⟩) |
      ⟨s, -, rfl⟩ <;> exact ⟨_, rfl⟩
  exact hs ▸ .text s

/-- The names of the attributes, in order. -/
def attributeNames : List String :=
  ["specversion", "id", "source", "type", "datacontenttype", "dataschema", "subject", "time"]

theorem sublist_optional {α : Type} (name : String) (o : Option α) (write : α → Tree) :
    ((o.map fun a => (name, write a)).toList.map Prod.fst).Sublist [name] := by
  cases o with
  | none => exact List.nil_sublist _
  | some a => exact .refl _

theorem names_attributeMembers (c : Context) :
    (c.attributeMembers.map Prod.fst).Sublist attributeNames := by
  simp only [attributeMembers, textMember, List.map_append]
  exact ((((List.Sublist.refl ["specversion", "id", "source", "type"]).append
    (sublist_optional _ _ _)).append (sublist_optional _ _ _)).append
      (sublist_optional _ _ _)).append (sublist_optional _ _ _)

/-- The attributes that no context can do without are always written. -/
theorem required_mem_attributeMembers {name : String}
    (h : name ∈ ["specversion", "id", "source", "type"]) (c : Context) :
    name ∈ c.attributeMembers.map Prod.fst := by
  simp only [attributeMembers, List.map_append, List.append_assoc]
  exact List.mem_append_left _ h

theorem fills_attributes (htime : ∀ t, c.time = some t → t.Proper) :
    schema.Fills {} c.attributeMembers { c with extensions := [] } := by
  let d₁ : Context := { specversion := c.specversion, id := c.id, source := c.source, type := c.type }
  let d₂ : Context := { d₁ with datacontenttype := c.datacontenttype }
  let d₃ : Context := { d₂ with dataschema := c.dataschema }
  let d₄ : Context := { d₃ with subject := c.subject }
  let d₅ : Context := { d₄ with time := c.time }
  have h₁ : schema.Fills {} [("specversion", .text c.specversion), ("id", .text c.id),
      ("source", .text c.source), ("type", .text c.type)] d₁ :=
    .cons rfl rfl (.cons rfl rfl (.cons rfl rfl (.single rfl rfl)))
  have h₂ : schema.Fills d₁ (textMember "datacontenttype" c.datacontenttype) d₂ :=
    .optional rfl (fun hn => by simp only [d₂, hn]; rfl) (fun s hs => by simp only [d₂, hs]; rfl)
  have h₃ : schema.Fills d₂ (textMember "dataschema" c.dataschema) d₃ :=
    .optional rfl (fun hn => by simp only [d₃, hn]; rfl) (fun s hs => by simp only [d₃, hs]; rfl)
  have h₄ : schema.Fills d₃ (textMember "subject" c.subject) d₄ :=
    .optional rfl (fun hn => by simp only [d₄, hn]; rfl) (fun s hs => by simp only [d₄, hs]; rfl)
  have h₅ : schema.Fills d₄ (textMember "time" (c.time.map Instant.text)) d₅ := by
    refine .optional rfl (fun hn => ?_) fun s hs => ?_
    · simp only [d₅, Option.map_eq_none_iff.mp hn]
      rfl
    · obtain ⟨t, ht, rfl⟩ := Option.map_eq_some_iff.mp hs
      have hread : Node.asOptional timeOfNode (Tree.text t.text).node = .ok (some t) := by
        rw [asOptional_node, Tree.node, timeOfNode, Instant.ofText?_text (htime t ht)]
        rfl
      simp only [hread, d₅, ht]
      rfl
  exact (((h₁.append h₂).append h₃).append h₄).append h₅

/-- The extensions as a member. -/
def extensionMember (c : Context) : List (String × Tree) :=
  if c.extensions.isEmpty then [] else [("Extensions", .object c.extensions)]

theorem extensionMember_of_eq_nil (h : c.extensions = []) : c.extensionMember = [] :=
  if_pos (List.isEmpty_iff.mpr h)

theorem extensionMember_of_ne_nil (h : c.extensions ≠ []) :
    c.extensionMember = [("Extensions", .object c.extensions)] :=
  if_neg fun hn => h (List.isEmpty_iff.mp hn)

theorem fills (hc : c.Sound) (hd : Tree.membersDepth c.extensions ≤ nestingLimit - 2) :
    schema.Fills {} (c.attributeMembers ++ c.extensionMember) c.reread := by
  refine (fills_attributes hc.time).append ?_
  by_cases hx : c.extensions = []
  · have hsame : { c with extensions := [] } = c.reread := by rw [reread, hx]; rfl
    rw [extensionMember_of_eq_nil hx, hsame]
    exact .nil c.reread
  · rw [extensionMember_of_ne_nil hx]
    refine .single rfl ?_
    simp only [extensionsField, asMap_node hc.sorted hc.values, if_pos hd]
    rfl

theorem names_nodup (c : Context) :
    ((c.attributeMembers ++ c.extensionMember).map Prod.fst).Nodup := by
  have hextension : (c.extensionMember.map Prod.fst).Sublist ["Extensions"] := by
    by_cases hx : c.extensions = []
    · rw [extensionMember_of_eq_nil hx]
      exact List.nil_sublist _
    · rw [extensionMember_of_ne_nil hx]
      exact .refl _
  have hnodup : (attributeNames ++ ["Extensions"]).Nodup := by decide
  rw [List.map_append]
  exact ((names_attributeMembers c).append hextension).nodup hnodup

theorem ofNode_node (hc : c.Sound) :
    ofNode c.tree.node =
      if Tree.membersDepth c.extensions ≤ nestingLimit - 2 then .ok c.reread
      else .error .malformed := by
  change (Tree.object (c.attributeMembers ++ c.extensionMember)).node.asObject schema {} = _
  split
  · next hd =>
    refine asObject_fills (fills hc hd) (names_nodup c) fun field hf hr => ?_
    have hall : ∀ p ∈ schema.fields.map fun f => (f.name, f.required),
        p.2 = true → p.1 ∈ ["specversion", "id", "source", "type"] := by decide
    rw [List.map_append]
    exact List.mem_append_left _
      (required_mem_attributeMembers (hall _ (List.mem_map_of_mem hf) hr) c)
  · next hd =>
    have hx : c.extensions ≠ [] := fun hx => hd (hx ▸ Nat.zero_le _)
    have hnodup := names_nodup c
    rw [extensionMember_of_ne_nil hx] at hnodup ⊢
    rw [List.map_append] at hnodup
    obtain ⟨hnames, -, hdisjoint⟩ := List.nodup_append.mp hnodup
    refine asObject_error (fills_attributes hc.time) hnames
      (fun hm => hdisjoint _ hm "Extensions" List.mem_cons_self rfl) rfl ?_
    simp only [extensionsField, asMap_node hc.sorted hc.values, if_neg hd]
    rfl

theorem Sound.finite_tree (hc : c.Sound) : c.tree.Finite := by
  change (Tree.object (c.attributeMembers ++ c.extensionMember)).Finite
  refine .object fun m hm => ?_
  rcases List.mem_append.mp hm with hm | hm
  · exact attributeMembers_finite c m hm
  · by_cases hx : c.extensions = []
    · rw [extensionMember_of_eq_nil hx] at hm
      cases hm
    · rw [extensionMember_of_ne_nil hx, List.mem_singleton] at hm
      exact hm ▸ .object fun x hx => (hc.values x hx).finite

/-- A context is read back from its bytes, unless its extensions nest too deep. -/
theorem decodeTyped_encode (hc : c.Sound) :
    decodeTyped ofNode (encode c.tree) =
      if Tree.membersDepth c.extensions ≤ nestingLimit - 2 then .ok c.reread
      else .error .malformed :=
  (Json.decodeTyped_encode ofNode hc.finite_tree).trans (ofNode_node hc)

end Context

end EventPipeline
