import EventPipeline.Pipeline
import EventPipeline.Proofs.Rule.Composition
import EventPipeline.Proofs.Tree.Assign
import EventPipeline.Proofs.Work.Confined

/-!
Moving values: a shift takes a value from one path to another, and a store followed by an add does
so through a variable. Where there was nothing before, the value arrives as it is, but for members
with the empty name, which are laid over their objects (`moved_value_received`).
-/

namespace EventPipeline

open EventPipeline.Path (Step)

namespace Tree

variable {t x : Tree} {steps : List Step}

/-- What a reader finds at the end of the steps in the result of writing a value over `base`, where
there was nothing: the value itself, if it went into a new array or is plain. -/
structure Receives (base : Tree) (steps : List Step) (value result : Tree) : Prop where
  read : result.read? steps =
    some (if base.opensArray steps then value else Tree.null.merge value)
  intact_iff : result.read? steps = some value ↔ base.opensArray steps ∨ value.Plain

theorem receives_assign {base : Tree} (hsteps : .key "" ∉ steps) (h : base.read? steps = none)
    (hx : x.WellFormed) : base.Receives steps x (base.assign steps x) := by
  have hread : (base.assign steps x).read? steps =
      some (if base.opensArray steps then x else Tree.null.merge x) := by
    rw [assign_eq_place hsteps, read?_place_self, written, nodeOrNull, h, Option.getD_none, overlay]
    split
    · rfl
    · split
      · next hnull => rw [hnull.1, merge_null_of_plain .null trivial]
      · rfl
  refine ⟨hread, ?_⟩
  rw [hread, Option.some.injEq]
  split
  · next ho => exact iff_of_true rfl (.inl ho)
  · next ho => rw [merge_null_eq_self_iff hx, or_iff_right ho]

end Tree

theorem Shift.key_empty_notMem_target {spec : PathSpec} {s : Shift} (h : ofSpec spec = .ok s) :
    .key "" ∉ s.target.steps := by
  unfold ofSpec at h
  split at h
  · obtain ⟨_, -, h⟩ := bind_eq_ok.mp h
    cases h
    exact Path.key_empty_notMem_parse _ _
  · cases h

theorem Shift.transform_of_allowed {s : Shift} (hvalue : s.value = "") (event : String)
    {t x : Tree} (hx : t.read? s.source.steps = some x) :
    s.transform event t =
      .done ((t.extract s.source.steps).1.assign s.target.steps x) := by
  have he : t.extract s.source.steps = ((t.extract s.source.steps).1, some x) :=
    Prod.ext rfl ((Tree.snd_extract t _).trans hx)
  rw [transform, he]
  simp only [allows, if_pos hvalue]
  rfl

theorem Store.run_transform (s : Store) (event : String) (t : Tree) (shared : Shared) :
    (s.transform event t).run shared = (t, { shared with
      storage := shared.storage.set event s.variableName ((t.read? s.path.steps).getD .null) }) :=
  rfl

/-- A single variable whose name is the template is added as it is. -/
theorem Add.run_compose_of_keys {a : Add} {event : String} {s : Shared} {x : Tree}
    (hname : a.template ≠ "") (hkeys : s.storage.keys event = [a.template])
    (hget : s.storage.get? event a.template = some x) (hx : x ≠ .null) :
    (a.compose event).run s = (x, s) := by
  have hnull : x.isNull = false := by
    cases x with
    | null => exact absurd rfl hx
    | _ => rfl
  have hlookup : s.lookup? event a.template = some x := by
    rw [Shared.lookup?, if_neg hname, hget, Option.filter_some, hnull]
    rfl
  rw [run_compose, variablesFor, hkeys, List.mergeSort_singleton, List.map_singleton, hlookup,
    Template.interpolate_name hname]

namespace Pipeline

/-- The pipeline that keeps the value at one path as a variable and adds it at another. -/
theorem ofTransforms_store_add {source target : PathSpec} (hname : source.key ≠ "")
    (hvalue : target.value = source.key)
    (hq : (Path.parse target.key target.separator).excess? = none) :
    ofTransforms [⟨.store, [source]⟩, ⟨.add, [target]⟩] =
      .ok ⟨[.store ⟨source.key, Path.parse source.value source.separator⟩,
        .add ⟨Path.parse target.key target.separator, source.key⟩]⟩ := by
  have hstore : Store.ofSpec source =
      .ok ⟨source.key, Path.parse source.value source.separator⟩ := if_neg hname
  have hadd : Add.ofSpec target =
      .ok ⟨Path.parse target.key target.separator, source.key⟩ := by
    simp only [Add.ofSpec, Path.ensureWritable, hq, hvalue]
    rfl
  have hrules : rulesFrom 0 [⟨.store, [source]⟩, ⟨.add, [target]⟩] =
      .ok [.store ⟨source.key, Path.parse source.value source.separator⟩,
        .add ⟨Path.parse target.key target.separator, source.key⟩] := by
    simp only [rulesFrom, entryRules, List.mapM_cons, List.mapM_nil, Rule.configure, hstore, hadd]
    rfl
  rw [ofTransforms, hrules]
  rfl

/-- A stored value that is added under its own name is written as it is. -/
theorem run_store_add {name : String} (hname : name ≠ "") (p q : Path) (event : String)
    {t x : Tree} (hp : t.read? p.steps = some x) (hx : x ≠ .null) :
    let pipeline : Pipeline := ⟨[.store ⟨name, p⟩, .add ⟨q, name⟩]⟩
    (((pipeline.applyTree event t .init).bind fun first =>
      pipeline.applyTree event first.1 .main).run .fresh).1 = (t.assign q.steps x, []) := by
  intro pipeline
  let stored : Shared := { Shared.fresh with storage := Storage.empty.set event name x }
  have hinit : (pipeline.applyTree event t .init).run .fresh = ((t, []), stored) := by
    change (applyRules event t [.store ⟨name, p⟩]).run .fresh = _
    simp only [applyRules, Rule.transform, Work.run_bind, Store.run_transform, hp, Option.getD_some]
    rfl
  have hcompose : ((⟨q, name⟩ : Add).compose event).run stored = (x, stored) := by
    refine Add.run_compose_of_keys hname ?_ (Storage.get?_set_self _ event name x) hx
    change Keyed.keys (Storage.variablesOf (Storage.empty.set event name x) event) = [name]
    rw [Storage.variablesOf_set_self]
    rfl
  have hmain : ((pipeline.applyTree event t .main).run stored).1 = (t.assign q.steps x, []) := by
    change ((applyRules event t [.add ⟨q, name⟩]).run stored).1 = _
    simp only [applyRules, Rule.transform, Add.transform, Work.run_bind, hcompose]
    rfl
  rw [Work.run_bind, hinit]
  exact hmain

end Pipeline

/--
A value that is moved to where nothing was arrives as it is when it goes into a new array or is
plain, and only then; otherwise it arrives as it comes out when it is laid over nothing. This holds
of a shift that lets every node pass, and of a store followed by an add of its variable.
-/
theorem moved_value_received {t x : Tree} (ht : t.WellFormed) (event : String) :
    (∀ (spec : PathSpec) (s : Shift) (shared : Shared), Shift.ofSpec spec = .ok s → s.value = "" →
      t.read? s.source.steps = some x →
      (t.extract s.source.steps).1.read? s.target.steps = none →
      (t.extract s.source.steps).1.Receives s.target.steps x ((s.transform event t).run shared).1) ∧
    (∀ source target : PathSpec, source.key ≠ "" → target.value = source.key →
      let p := Path.parse source.value source.separator
      let q := Path.parse target.key target.separator
      q.excess? = none → t.read? p.steps = some x → x ≠ .null → t.read? q.steps = none →
      ∃ pipeline result,
        Pipeline.ofTransforms [⟨.store, [source]⟩, ⟨.add, [target]⟩] = .ok pipeline ∧
        (((pipeline.applyTree event t .init).bind fun first =>
          pipeline.applyTree event first.1 .main).run .fresh).1 = (result, []) ∧
        t.Receives q.steps x result) := by
  constructor
  · intro spec s shared hs hvalue hx hnone
    rw [Shift.transform_of_allowed hvalue event hx]
    exact Tree.receives_assign (Shift.key_empty_notMem_target hs) hnone (ht.read? hx)
  · intro source target hname hvalue p q hq hx hnull hnone
    exact ⟨_, t.assign q.steps x, Pipeline.ofTransforms_store_add hname hvalue hq,
      Pipeline.run_store_add hname p q event hx hnull,
      Tree.receives_assign (Path.key_empty_notMem_parse _ _) hnone (ht.read? hx)⟩

/-- A list arrives as it is, whatever the members of the objects in it are called. -/
theorem moved_value_received_list :
    let x := Tree.array [.object [("", .bool true)]]
    let t := Tree.object [("a", .object [("k", x)])]
    let s : Shift := ⟨⟨[.key "a", .key "k"]⟩, ⟨[.key "b"]⟩, ""⟩
    let source : PathSpec := { key := "$v", value := "a.k" }
    let target : PathSpec := { key := "b", value := "$v" }
    (t.WellFormed ∧ Shift.ofSpec { key := "a.k:b" } = .ok s ∧
      t.read? [.key "a", .key "k"] = some x ∧
      (t.extract [.key "a", .key "k"]).1.read? [.key "b"] = none ∧ x ≠ .null ∧
      t.read? [.key "b"] = none) ∧
    ((s.transform "evt" t).run .fresh).1.read? [.key "b"] = some x ∧
    ∃ pipeline result,
      Pipeline.ofTransforms [⟨.store, [source]⟩, ⟨.add, [target]⟩] = .ok pipeline ∧
      (((pipeline.applyTree "evt" t .init).bind fun first =>
        pipeline.applyTree "evt" first.1 .main).run .fresh).1 = (result, []) ∧
      result.read? [.key "b"] = some x := by
  intro x t s source target
  have hx : x.WellFormed := ⟨⟨List.pairwise_singleton _ _, trivial, trivial⟩, trivial⟩
  have ht : t.WellFormed :=
    ⟨List.pairwise_singleton _ _, ⟨List.pairwise_singleton _ _, hx, trivial⟩, trivial⟩
  have hnull : x ≠ .null := by decide
  have hs : Shift.ofSpec { key := "a.k:b" } = .ok s := eq_ok_of_toOption (by decide +kernel)
  have hp : Path.parse source.value source.separator = ⟨[.key "a", .key "k"]⟩ := by decide +kernel
  have hq : Path.parse target.key target.separator = ⟨[.key "b"]⟩ := by decide +kernel
  obtain ⟨hshift, hstore⟩ := moved_value_received ht "evt" (x := x)
  obtain ⟨pipeline, result, hpipeline, hrun, hreceives⟩ :=
    hstore source target (by decide) rfl (by rw [hq]; rfl) (by rw [hp]; rfl) hnull (by rw [hq]; rfl)
  rw [hq] at hreceives
  exact ⟨⟨ht, hs, rfl, rfl, hnull, rfl⟩,
    (hshift _ s .fresh hs rfl rfl rfl).intact_iff.mpr (.inr (.array _)),
    pipeline, result, hpipeline, hrun, hreceives.intact_iff.mpr (.inr (.array _))⟩

/-- An object whose only member has the empty name arrives as the value of that member. -/
theorem moved_value_altered :
    let x := Tree.object [("", .bool true)]
    let t := Tree.object [("a", x)]
    let s : Shift := ⟨⟨[.key "a"]⟩, ⟨[.key "b"]⟩, ""⟩
    (t.WellFormed ∧ t.read? [.key "a"] = some x ∧ t.read? [.key "b"] = none ∧
      (t.extract [.key "a"]).1.read? [.key "b"] = none ∧ x ≠ .bool true) ∧
    (Shift.ofSpec { key := "a:b" } = .ok s ∧
      ((s.transform "evt" t).run .fresh).1.read? [.key "b"] = some (.bool true)) ∧
    ((Pipeline.ofTransforms [⟨.store, [{ key := "$v", value := "a" }]⟩,
        ⟨.add, [{ key := "b", value := "$v" }]⟩]).toOption.map fun pipeline =>
      (((pipeline.applyTree "evt" t .init).bind fun first =>
        pipeline.applyTree "evt" first.1 .main).run .fresh).1.1.read? [.key "b"]) =
      some (some (.bool true)) := by
  intro x t s
  have hx : x.WellFormed := ⟨List.pairwise_singleton _ _, trivial, trivial⟩
  have ht : t.WellFormed := ⟨List.pairwise_singleton _ _, hx, trivial⟩
  have hs : Shift.ofSpec { key := "a:b" } = .ok s := eq_ok_of_toOption (by decide +kernel)
  exact ⟨⟨ht, rfl, rfl, rfl, by decide⟩, ⟨hs, by decide +kernel⟩, by decide +kernel⟩

end EventPipeline
