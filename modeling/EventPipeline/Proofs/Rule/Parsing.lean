import EventPipeline.Proofs.Json.Typed
import EventPipeline.Proofs.Pipeline.Steps
import EventPipeline.Proofs.Tree.Extract

/-!
What a parse changes. To fill a place of a tree changes what is read there, and nothing that is read
beside it (`Tree.rewrites_fill`). A parse fills the place of a text with the tree that the text
holds, and changes nothing in all other cases (`Parse.transform_acts`).
-/

namespace EventPipeline

open EventPipeline.Path (Step)

namespace Tree

variable {t node child : Tree} {s : Step} {common rest steps : List Step} {slot : Slot}

/-! ### Places -/

/-- The same ways lead down: to members of the same names, or to as many elements. -/
inductive SameFrame : Tree → Tree → Prop where
  | object {members left : List (String × Tree)} :
    left.map Prod.fst = members.map Prod.fst → SameFrame (.object members) (.object left)
  | array {items left : List Tree} :
    left.length = items.length → SameFrame (.array items) (.array left)

theorem sameFrame_withChild (h : t.child? s = some child) (new : Tree) :
    t.SameFrame (t.withChild new s) := by
  cases s with
  | key name =>
    cases t with
    | object members => exact .object (Keyed.keys_replace name new members)
    | _ => cases h
  | index i =>
    cases t with
    | array items => exact .array List.length_set
    | _ => cases h

theorem exists_slot?_iff : (∃ slot, t.slot? steps = some slot ∧ slot.node = node) ↔
    t.read? steps = some node := by
  rw [← slot?_map_node, Option.map_eq_some_iff]

theorem exists_of_slot?_cons (h : t.slot? (s :: rest) = some slot) :
    ∃ child below, t.child? s = some child ∧ child.slot? rest = some below ∧
      slot.fill = fun new => t.withChild (below.fill new) s := by
  obtain ⟨child, hchild, h⟩ := Option.bind_eq_some_iff.mp h
  obtain ⟨below, hbelow, rfl⟩ := Option.map_eq_some_iff.mp h
  exact ⟨child, below, hchild, hbelow, rfl⟩

/-- Down to a node on the way, the way stays the same; below it, what is read is what the place
makes of that node. -/
theorem exists_of_slot?_append (h : t.slot? (common ++ rest) = some slot) :
    ∃ node below, t.read? common = some node ∧ node.slot? rest = some below ∧
      ∀ new qs, (slot.fill new).read? (common ++ qs) = (below.fill new).read? qs := by
  induction common generalizing t slot with
  | nil => exact ⟨t, slot, rfl, h, fun _ _ => rfl⟩
  | cons s common ih =>
    obtain ⟨child, next, hchild, hnext, hfill⟩ := exists_of_slot?_cons h
    obtain ⟨node, below, hnode, hbelow, hread⟩ := ih hnext
    refine ⟨node, below, ?_, hbelow, fun new qs => ?_⟩
    · rw [read?, hchild, Option.bind_some, hnode]
    · rw [hfill, List.cons_append, read?, child?_withChild_self hchild, Option.bind_some, hread]

/-- The node at the end of the steps is another one, and all else is what it was. -/
structure Rewrites (t : Tree) (steps : List Step) (new result : Tree) : Prop where
  read : result.read? steps = some new
  /-- Whoever turns off the way finds what was there. -/
  beside : ∀ common s ps r qs, steps = common ++ s :: ps → s ≠ r →
    result.read? (common ++ r :: qs) = t.read? (common ++ r :: qs)
  above : ∀ common s ps, steps = common ++ s :: ps →
    ∃ node left, t.read? common = some node ∧ result.read? common = some left ∧ node.SameFrame left

theorem rewrites_fill (h : t.slot? steps = some slot) (new : Tree) :
    t.Rewrites steps new (slot.fill new) where
  read := by
    rw [← List.append_nil steps] at h ⊢
    obtain ⟨node, below, -, hbelow, hread⟩ := exists_of_slot?_append h
    cases hbelow
    exact hread new []
  beside := by
    rintro common s ps r qs rfl hne
    obtain ⟨node, below, hnode, hbelow, hread⟩ := exists_of_slot?_append h
    obtain ⟨child, next, hchild, hnext, hfill⟩ := exists_of_slot?_cons hbelow
    rw [hread, hfill, read?_append, hnode, Option.bind_some, read?, read?,
      child?_withChild_of_ne hne]
  above := by
    rintro common s ps rfl
    obtain ⟨node, below, hnode, hbelow, hread⟩ := exists_of_slot?_append h
    obtain ⟨child, next, hchild, hnext, hfill⟩ := exists_of_slot?_cons hbelow
    refine ⟨node, below.fill new, hnode, ?_, ?_⟩
    · have hhere := hread new []
      rwa [List.append_nil] at hhere
    · rw [hfill]
      exact sameFrame_withChild hchild _

end Tree

/-! ### Parsing -/

namespace Parse

/-- What a parse makes of a tree. -/
structure Acts (p : Parse) (t : Tree) : Prop where
  /-- The place to be filled is there when a reader finds a node, and holds that node. -/
  place : (t.slot? p.path.steps).map Tree.Slot.node = t.read? p.path.steps
  absent : t.read? p.path.steps = none → p.transform t = .ok t
  parsed : ∀ s v, t.read? p.path.steps = some (.text s) → Json.read s = .ok v →
    ∃ result, p.transform t = .ok result ∧ t.Rewrites p.path.steps v result
  badJson : ∀ s problem, t.read? p.path.steps = some (.text s) → Json.read s = .error problem →
    p.transform t = .error (.operation .parse p.path.display (.badJson problem))
  notAText : ∀ node, t.read? p.path.steps = some node → (∀ s, node ≠ .text s) →
    p.transform t = .error (.operation .parse p.path.display (.notAText node.kindName))
  /-- After an error, the rules behind have their turn on the tree as it was. -/
  carried : ∀ e, p.transform t = .error e → ∀ event rules s,
    (Pipeline.applyRules event t (.parse p :: rules)).run s =
      let rest := (Pipeline.applyRules event t rules).run s
      ((rest.1.1, e :: rest.1.2), rest.2)

theorem transform_of_slot? (p : Parse) {t : Tree} {slot : Tree.Slot}
    (h : t.slot? p.path.steps = some slot) :
    p.transform t = slot.fill <$> p.replacement slot.node := by
  rw [transform, h]

/-- A parse rewrites the text at its path, or nothing. -/
theorem transform_acts (p : Parse) (t : Tree) : p.Acts t where
  place := Tree.slot?_map_node t p.path.steps
  absent := by
    intro h
    rw [← Tree.slot?_map_node, Option.map_eq_none_iff] at h
    rw [transform, h]
  parsed := by
    intro s v hread hv
    obtain ⟨slot, hslot, hnode⟩ := Tree.exists_slot?_iff.mpr hread
    have hnew : p.replacement slot.node = .ok v := by
      rw [hnode, replacement, hv]
    refine ⟨slot.fill v, ?_, Tree.rewrites_fill hslot v⟩
    rw [p.transform_of_slot? hslot, hnew]
    rfl
  badJson := by
    intro s problem hread hproblem
    obtain ⟨slot, hslot, hnode⟩ := Tree.exists_slot?_iff.mpr hread
    rw [p.transform_of_slot? hslot, hnode, replacement, hproblem]
    rfl
  notAText := by
    intro node hread htext
    obtain ⟨slot, hslot, hnode⟩ := Tree.exists_slot?_iff.mpr hread
    rw [p.transform_of_slot? hslot, hnode]
    cases node with
    | text s => exact absurd rfl (htext s)
    | _ => rfl
  carried := by
    intro e he event rules s
    apply Pipeline.run_applyRules_error
    rw [Rule.transform, Work.run, he]

/-- A text in a list is parsed; its neighbours, and a text that is not JSON, stay. -/
theorem transform_acts_list :
    let p (i : Nat) : Parse := ⟨⟨[.key "a", .index i]⟩, .json⟩
    let t := Tree.object [("a", .array [.text "[null]", .text "[null", .bool true])]
    (∃ result, (p 0).transform t = .ok result ∧
      result.read? [.key "a", .index 0] = some (.array [.null]) ∧
      result.read? [.key "a", .index 2] = some (.bool true)) ∧
    (∃ e, (p 1).transform t = .error e) ∧
    (p 2).transform t = .error (.operation .parse "a[2]" (.notAText "boolean")) ∧
    (p 3).transform t = .ok t := by
  intro p t
  have hjson : Json.read "[null]" = .ok (.array [.null]) := eq_ok_of_toOption (by decide +kernel)
  refine ⟨?_, ?_, ?_, (transform_acts (p 3) t).absent rfl⟩
  · obtain ⟨result, hresult, hrewrites⟩ := (transform_acts (p 0) t).parsed _ _ rfl hjson
    refine ⟨result, hresult, hrewrites.read, ?_⟩
    exact hrewrites.beside [.key "a"] (.index 0) [] (.index 2) [] rfl (by decide)
  · cases hbad : Json.read "[null" with
    | ok v =>
      have hnone : (Json.read "[null").toOption = none := by decide +kernel
      rw [hbad] at hnone
      cases hnone
    | error problem => exact ⟨_, (transform_acts (p 1) t).badJson _ _ rfl hbad⟩
  · exact (transform_acts (p 2) t).notAText _ rfl nofun

end Parse

end EventPipeline
