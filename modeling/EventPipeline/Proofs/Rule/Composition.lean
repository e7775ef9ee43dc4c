import EventPipeline.Proofs.Json.Typed
import EventPipeline.Proofs.Template.Steps
import EventPipeline.Proofs.Tree.Layers
import EventPipeline.Rule.Add

/-!
What an add writes: its template, filled from the variables of the event in the order of their
names (`Add.run_compose`). Every such value is a text or the value of a variable
(`Add.interpolate_induct`). Main statement: an add that is applied to its own result changes
nothing (`Add.transform_idempotent`).
-/

namespace EventPipeline

/-- The value of a variable as operations see it. -/
def Shared.lookup? (s : Shared) (event name : String) : Option Tree :=
  if name = "" then none else (s.storage.get? event name).filter fun t => !t.isNull

theorem Shared.get?_of_lookup? {s : Shared} {event name : String} {t : Tree}
    (h : s.lookup? event name = some t) : s.storage.get? event name = some t := by
  unfold lookup? at h
  split at h
  · cases h
  · exact (Option.filter_eq_some_iff.mp h).1

theorem run_resolve (event name : String) (s : Shared) :
    (resolve event name).run s = (s.lookup? event name, s) := by
  unfold resolve Shared.lookup?
  split <;> rfl

namespace Add

/-- The variables of an event, in the order in which they are filled in. -/
def variablesFor (event : String) (s : Shared) : List Template.Variable :=
  ((s.storage.keys event).mergeSort fillsBefore).map fun name => ⟨name, s.lookup? event name⟩

theorem run_resolveAll (event : String) (names : List String) (s : Shared) :
    (resolveAll event names).run s = (names.map fun name => ⟨name, s.lookup? event name⟩, s) := by
  induction names with
  | nil => rfl
  | cons name names ih =>
    rw [resolveAll, Work.run_bind, run_resolve, Work.run_bind, ih]
    rfl

theorem run_compose (a : Add) (event : String) (s : Shared) :
    (a.compose event).run s = (Template.interpolate a.template (variablesFor event s), s) := by
  rw [compose, Work.run]
  simp only [Shared.answer, Work.run_bind, run_resolveAll]
  rfl

theorem run_transform (a : Add) (event : String) (t : Tree) (s : Shared) :
    (a.transform event t).run s =
      (t.assign a.path.steps (Template.interpolate a.template (variablesFor event s)), s) := by
  rw [transform, Work.run_bind, run_compose]
  rfl

/-- What holds of texts and of the event's variables holds of what is written. -/
theorem interpolate_induct {P : Tree → Prop} (text : ∀ s, P (.text s)) {event : String} {s : Shared}
    (value : ∀ name t, s.storage.get? event name = some t → P t) (template : String) :
    P (Template.interpolate template (variablesFor event s)) := by
  refine Template.fill_induct text (fun v hv t ht => ?_) template.toList
  obtain ⟨name, -, rfl⟩ := List.mem_map.mp hv
  exact value name t (Shared.get?_of_lookup? ht)

theorem key_empty_notMem_path {spec : PathSpec} {a : Add} (h : ofSpec spec = .ok a) :
    .key "" ∉ a.path.steps := by
  obtain ⟨_, -, h⟩ := bind_eq_ok.mp h
  cases h
  exact Path.key_empty_notMem_parse _ _

/--
An add that is applied to its own result, with the same variables, gives the same tree once more,
when no object in a variable of the event has a member with the empty name.
-/
theorem transform_idempotent {spec : PathSpec} {a : Add} (ha : ofSpec spec = .ok a) {t : Tree}
    (ht : t.WellFormed) {event : String} {shared : Shared}
    (hvars : ∀ name x, shared.storage.get? event name = some x → x.WellFormed ∧ x.Named) :
    let once := ((a.transform event t).run shared).1
    (a.transform event once).run shared = (once, shared) := by
  obtain ⟨hw, hn⟩ := interpolate_induct (P := fun x => x.WellFormed ∧ x.Named)
    (fun s => ⟨trivial, .text s⟩) hvars a.template
  simp only [run_transform, Tree.assign_assign_self (key_empty_notMem_path ha) hn hw ht]

/-- A list with padding and an object in it, laid over a list that is there. -/
theorem transform_idempotent_list :
    let x := Tree.array [.null, .object [("k", .null), ("l", .array [.bool true])], .text "z"]
    let t := Tree.object [("a", .array [.bool false, .object [("k", .text "s"), ("m", .null)]])]
    let shared := { Shared.fresh with storage := Storage.empty.set "evt" "$v" x }
    let a : Add := ⟨⟨[.key "a"]⟩, "$v"⟩
    let once := Tree.object [("a", .array [.bool false,
      .object [("k", .null), ("l", .array [.bool true]), ("m", .null)], .text "z"])]
    (ofSpec { key := "a", value := "$v" } = .ok a ∧ t.WellFormed ∧
      ∀ name x, shared.storage.get? "evt" name = some x → x.WellFormed ∧ x.Named) ∧
    ((a.transform "evt" t).run shared).1 = once ∧
    (a.transform "evt" once).run shared = (once, shared) := by
  intro x t shared a once
  have ha : ofSpec { key := "a", value := "$v" } = .ok a := eq_ok_of_toOption (by decide +kernel)
  have ht : t.WellFormed := by
    refine ⟨List.pairwise_singleton _ _, ⟨trivial, ⟨?_, trivial, trivial, trivial⟩, trivial⟩,
      trivial⟩
    unfold Keyed.Sorted
    decide
  have hw : x.WellFormed := by
    refine ⟨trivial, ⟨?_, trivial, ⟨trivial, trivial⟩, trivial⟩, trivial, trivial⟩
    unfold Keyed.Sorted
    decide
  have hn : x.Named := by
    refine .array fun y hy => ?_
    simp only [List.mem_cons, List.not_mem_nil, or_false] at hy
    rcases hy with rfl | rfl | rfl
    · exact .null
    · refine .object (by decide) fun m hm => ?_
      simp only [List.mem_cons, List.not_mem_nil, or_false] at hm
      rcases hm with rfl | rfl
      · exact .null
      · exact .array fun z hz => List.mem_singleton.mp hz ▸ .bool true
    · exact .text "z"
  have hvars : ∀ name y, shared.storage.get? "evt" name = some y → y.WellFormed ∧ y.Named := by
    intro name y hy
    by_cases hname : name = "$v"
    · rw [hname, Storage.get?_set_self] at hy
      exact Option.some.inj hy ▸ ⟨hw, hn⟩
    · rw [Storage.get?_set_of_ne _ _ hname] at hy
      cases hy
  have honce : ((a.transform "evt" t).run shared).1 = once := by decide +kernel
  have htwice := transform_idempotent ha ht hvars
  rw [honce] at htwice
  exact ⟨⟨ha, ht, hvars⟩, honce, htwice⟩

end Add

end EventPipeline
