import EventPipeline.Proofs.Json.Reader
import EventPipeline.Proofs.Rule.Prune
import EventPipeline.Proofs.Template.Steps
import EventPipeline.Proofs.Tree.Extract
import EventPipeline.Proofs.Tree.Merge
import EventPipeline.Rule.Basic

/-!
Operations make sound trees of sound trees: reading, replacing, removing and writing nodes,
pruning, parsing, and filling variables into templates.
-/

namespace EventPipeline

open EventPipeline.Path (Step)

namespace Tree

variable {t new : Tree} {step : Step} {steps : List Step}

namespace Sound

theorem items {items : List Tree} (h : Sound (.array items)) : ∀ t ∈ items, t.Sound := by
  cases h with
  | array h => exact h

theorem members {members : List (String × Tree)} (h : Sound (.object members)) :
    Keyed.Sorted members ∧ ∀ m ∈ members, m.2.Sound := by
  cases h with
  | object hs h => exact ⟨hs, h⟩

theorem child? (h : t.Sound) {child : Tree} (hc : t.child? step = some child) : child.Sound := by
  cases step with
  | key name =>
    cases h with
    | object _ hm => exact hm _ (Keyed.mem_of_get? hc)
    | _ => cases hc
  | index i =>
    cases h with
    | array hi => exact hi _ (List.mem_of_getElem? hc)
    | _ => cases hc

theorem withChild (h : t.Sound) (hn : new.Sound) (step : Step) : (t.withChild new step).Sound := by
  have ht := h
  cases step with
  | key name =>
    cases h with
    | object hs hm =>
      refine .object (Keyed.sorted_replace hs name new) fun m hm' => ?_
      rcases Keyed.mem_replace hm' with hv | hm'
      · exact hv ▸ hn
      · exact hm m hm'
    | _ => exact ht
  | index i =>
    cases h with
    | array hi =>
      refine .array fun s hs => ?_
      rcases List.mem_or_eq_of_mem_set hs with hs | rfl
      · exact hi s hs
      · exact hn
    | _ => exact ht

theorem withoutChild (h : t.Sound) (step : Step) : (t.withoutChild step).Sound := by
  have ht := h
  cases step with
  | key name =>
    cases h with
    | object hs hm =>
      exact .object (Keyed.sorted_erase hs name) fun m hm' =>
        hm m ((Keyed.sublist_erase _ _).subset hm')
    | _ => exact ht
  | index i =>
    cases h with
    | array hi => exact .array fun s hs => hi s (List.mem_of_mem_eraseIdx hs)
    | _ => exact ht

theorem read? (h : t.Sound) {node : Tree} (hr : t.read? steps = some node) : node.Sound := by
  induction steps generalizing t with
  | nil => exact Option.some.inj hr ▸ h
  | cons step steps ih =>
    obtain ⟨child, hc, hr⟩ := Option.bind_eq_some_iff.mp hr
    exact ih (h.child? hc) hr

/-- A sound node put into a place of a sound tree makes a sound tree. -/
theorem slot? (h : t.Sound) {slot : Slot} (hs : t.slot? steps = some slot) :
    slot.node.Sound ∧ ∀ new : Tree, new.Sound → (slot.fill new).Sound := by
  induction steps generalizing t slot with
  | nil =>
    cases hs
    exact ⟨h, fun _ hn => hn⟩
  | cons step steps ih =>
    obtain ⟨child, hc, hs⟩ := Option.bind_eq_some_iff.mp hs
    obtain ⟨inner, hi, rfl⟩ := Option.map_eq_some_iff.mp hs
    obtain ⟨hnode, hfill⟩ := ih (h.child? hc) hi
    exact ⟨hnode, fun new hn => h.withChild (hfill new hn) step⟩

theorem extract (h : t.Sound) (steps : List Step) :
    (t.extract steps).1.Sound ∧ ∀ node, (t.extract steps).2 = some node → node.Sound := by
  refine ⟨?_, fun node hn => h.read? (snd_extract t steps ▸ hn)⟩
  apply extract_induct .null
  · exact fun _ _ _ hc h => h.child? hc
  · exact fun _ s _ h hnew => h.withChild hnew s
  · exact fun _ s h => h.withoutChild s
  · exact h

theorem membersOrNone (h : t.Sound) :
    Keyed.Sorted t.membersOrNone ∧ ∀ m ∈ t.membersOrNone, m.2.Sound := by
  cases h with
  | object hs hm => exact ⟨hs, hm⟩
  | _ => exact ⟨.nil, nofun⟩

theorem getD_get? {members : Keyed Tree} (h : ∀ m ∈ members, m.2.Sound) (name : String) :
    ((Keyed.get? name members).getD .null).Sound := by
  cases hg : Keyed.get? name members with
  | none => exact .null
  | some value => exact h _ (Keyed.mem_of_get? hg)

theorem merge {base layer : Tree} (hb : base.Sound) (hl : layer.Sound) :
    (base.merge layer).Sound := by
  refine merge_induct (R := fun base layer result => base.Sound → layer.Sound → result.Sound)
    ?_ ?_ ?_ base layer hb hl
  · intro base layer _ _ hl
    exact hl
  · intro slots items merged _ hmerged hb hl
    have hslots : ∀ slot ∈ Tree.null :: slots, slot.Sound :=
      List.forall_mem_cons.mpr ⟨.null, hb.items⟩
    refine .array fun x hx => ?_
    rcases hmerged x hx with hx | ⟨slot, hslot, item, hitem, hsound⟩
    · exact hslots x hx
    · exact hsound (hslots slot hslot) (hl.items item hitem)
  · intro base members result hresult hb hl
    have hvalues := hl.members.2
    obtain ⟨hs, hm⟩ := hb.membersOrNone
    refine hresult Sound (.object hs hm) ?_ ?_
    · intro value hvalue current next hcurrent hnext
      exact hnext hcurrent (hvalues _ hvalue)
    · intro name value hvalue _ current next hcurrent hnext
      obtain ⟨hsorted, hmembers⟩ := hcurrent.membersOrNone
      refine .object (Keyed.sorted_insert hsorted _ _) fun e he => ?_
      rcases Keyed.mem_insert he with rfl | he
      · exact hnext (getD_get? hmembers name) (hvalues _ hvalue)
      · exact hmembers e he

theorem encode {value : Tree} (h : value.Sound) (steps : List Step) :
    (encode steps value).Sound := by
  induction steps with
  | nil => exact h
  | cons step steps ih =>
    cases step with
    | key name =>
      refine .object (List.pairwise_singleton _ _) fun m hm => ?_
      rw [List.mem_singleton.mp hm]
      exact ih
    | index i =>
      refine .array fun t ht => ?_
      rcases List.mem_append.mp ht with ht | ht
      · rw [List.eq_of_mem_replicate ht]
        exact .null
      · rw [List.mem_singleton.mp ht]
        exact ih

theorem assign (h : t.Sound) {value : Tree} (hv : value.Sound) (steps : List Step) :
    (t.assign steps value).Sound := h.merge (hv.encode steps)

theorem prune {key separator : String} {filter : Option String} {trail : String} {kept : Tree}
    (h : t.Sound) (hp : Delete.prune key separator filter trail t = some kept) : kept.Sound := by
  have hp : Delete.Selection.prune ⟨key, separator, filter⟩ trail t = some kept := hp
  refine Delete.Selection.prune_induct (R := fun t x => t.Sound → x.Sound) (fun _ _ h => h) ?_ ?_
    hp h
  · intro items left _ hleft h
    refine .array fun x hx => ?_
    obtain ⟨t, ht, hsound⟩ := hleft x hx
    exact hsound (h.items t ht)
  · intro members left hsorted hleft h
    refine .object (hsorted h.members.1) fun e he => ?_
    obtain ⟨m, hm, hsound⟩ := hleft e he
    exact hsound (h.members.2 m hm)

/-- What is written of a template is sound when the variables are. -/
theorem fill {vars : List Template.Variable} (h : ∀ v ∈ vars, ∀ t, v.value = some t → t.Sound)
    (text : List Char) : (Template.fill text vars).Sound :=
  Template.fill_induct .text h text

theorem replacement {p : Parse} {node new : Tree} (h : p.replacement node = .ok new) :
    new.Sound := by
  unfold Parse.replacement at h
  split at h
  · split at h
    · next hr =>
      cases h
      exact (Json.sound_of_read hr).1
    · cases h
  · cases h

theorem parse (h : t.Sound) {p : Parse} {s : Tree} (hp : p.transform t = .ok s) : s.Sound := by
  rw [Parse.transform] at hp
  split at hp
  · cases hp
    exact h
  · next slot hs =>
    obtain ⟨-, hfill⟩ := h.slot? hs
    cases hr : p.replacement slot.node with
    | error e =>
      rw [hr] at hp
      cases hp
    | ok new =>
      rw [hr] at hp
      cases hp
      exact hfill new (replacement hr)

end Sound

end Tree

end EventPipeline
