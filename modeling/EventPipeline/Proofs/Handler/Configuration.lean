import EventPipeline.Proofs.Handler.Reports
import EventPipeline.Proofs.Pipeline.Configuration

/-!
When errors of the configuration are found. A configuration is checked before anything is built of
it (`Handler.ofTransforms_ruling`); what fails later on is never its fault
(`Error.Returned.isConfiguration`).
-/

namespace EventPipeline

open Pipeline (Entry entries)

variable {e : Error}

namespace Handler

variable {context data : List Transform}

/-- Why no handler is built; the contexts are looked at first. -/
def Fault (context data : List Transform) (e : Error) : Prop :=
  (∃ cause, Pipeline.Fault context cause ∧ e = .noted "context pipeline" cause) ∨
    (∀ x ∈ entries context, x.WellFormed) ∧
      ∃ cause, Pipeline.Fault data cause ∧ e = .noted "data pipeline" cause

theorem Fault.isConfiguration (h : Fault context data e) : e.isConfiguration = true := by
  rcases h with ⟨cause, hcause, rfl⟩ | ⟨-, cause, hcause, rfl⟩
  · exact hcause.isConfiguration
  · exact hcause.isConfiguration

/-- A handler is built when the entries for contexts and those for payloads are well formed. -/
theorem ofTransforms_ruling (context data : List Transform) :
    Ruling (ofTransforms context data)
      ((∀ x ∈ entries context, x.WellFormed) ∧ ∀ x ∈ entries data, x.WellFormed)
      ⟨⟨(entries context).map Entry.rule⟩, ⟨(entries data).map Entry.rule⟩⟩
      (Fault context data) := by
  have hcontext := (Pipeline.ofTransforms_ruling context).mapError (Error.noted "context pipeline")
  have hdata := (Pipeline.ofTransforms_ruling data).mapError (Error.noted "data pipeline")
  rw [ofTransforms]
  simp only [bind_pure_comp]
  exact hcontext.bind (hdata.map _)

/-- An event is rejected for its content type, for bytes that hold no payload, or for a context that
is that of no event. -/
inductive Rejection : Error → Prop where
  | contentType (contentType : String) : Rejection (.unsupportedContentType contentType)
  | payload (problem : Problem) : Rejection (.decode problem)
  | context (fault : EventFault) : Rejection (.invalidEvent fault)

theorem rejection_of_ofParts {c : Context} {data : Option Tree}
    (h : Event.ofParts c data = .error e) : Rejection e := by
  rcases bind_eq_error.mp h with h | ⟨-, -, h⟩
  · rw [Context.validate] at h
    split at h
    · cases h
      exact .context _
    · cases h
  · cases h

theorem rejection_of_rebuild {hadData : Bool} {context data : ByteArray} {errors : List Error}
    (h : rebuild hadData context data errors = .error e) : Rejection e := by
  rcases bind_eq_error.mp h with hcontext | ⟨c, -, h⟩
  · obtain ⟨problem, -, rfl⟩ := mapError_eq_error_iff.mp hcontext
    exact .context _
  rcases bind_eq_error.mp h with hdata | ⟨t, -, h⟩
  · obtain ⟨problem, -, rfl⟩ := mapError_eq_error_iff.mp hdata
    exact .payload _
  rcases bind_eq_error.mp h with hparts | ⟨event, -, h⟩
  · exact rejection_of_ofParts hparts
  · cases h

theorem rejection_of_error {h : Handler} {event : Event} {s : Shared}
    (he : ((h.transform event).run s).1 = .error e) : Rejection e := by
  by_cases hjson : event.hasJsonData = true
  · obtain ⟨context, data, errors, hrebuild, -⟩ := h.transform_eq_rebuild_of hjson s
    exact rejection_of_rebuild (hrebuild.symm.trans he)
  · rw [transform, if_neg hjson] at he
    cases he
    exact .contentType _

end Handler

namespace Error

/-- The errors that rules, pipelines and handlers return when they are at work. -/
inductive Returned : Error → Prop where
  | rule {r : Rule} {event : String} {t : Tree} {s : Shared} {e : Error} :
    ((r.transform event t).run s).1 = .error e → Returned e
  | ruleBytes {r : Rule} {event : String} {data : ByteArray} {s : Shared} {e : Error} :
    ((r.apply event data).run s).1 = .error e → Returned e
  | applyTree {p : Pipeline} {event : String} {t : Tree} {phase : Phase} {s : Shared} {e : Error} :
    e ∈ ((p.applyTree event t phase).run s).1.2 → Returned e
  | apply {p : Pipeline} {event : String} {data : ByteArray} {phase : Phase} {s : Shared}
    {e : Error} : ((p.apply event data phase).run s).1.error = some e → Returned e
  | applyAll {p : Pipeline} {event : String} {data : ByteArray} {s : Shared} {e : Error} :
    ((p.applyAll event data).run s).1.error = some e → Returned e
  | rejected {h : Handler} {event : Event} {s : Shared} {e : Error} :
    ((h.transform event).run s).1 = .error e → Returned e
  | handedOn {h : Handler} {event : Event} {s : Shared} {out : Transformed} {e : Error} :
    ((h.transform event).run s).1 = .ok out → out.error = some e → Returned e

theorem isStep_of_run_apply {r : Rule} {event : String} {data : ByteArray} {s : Shared}
    (he : ((r.apply event data).run s).1 = .error e) : e.IsStep := by
  rw [Rule.apply] at he
  split at he
  · cases he
    exact .decode _
  · next t _ =>
    rw [Work.run_bind] at he
    cases hrun : ((r.transform event t).run s).1 with
    | error e' =>
      rw [hrun] at he
      cases he
      exact Rule.isStep_of_run hrun
    | ok next =>
      rw [hrun] at he
      cases he

/-- No leaf of an error that is returned at work is the configuration's fault, nor is the error. -/
theorem Returned.isConfiguration (h : e.Returned) :
    e.isConfiguration = false ∧ ∀ f ∈ e.leaves, f.isConfiguration = false := by
  have hsteps {runs : List Pipeline.Run} : ∀ f ∈ runs.flatMap Pipeline.Run.failures, f.IsStep := by
    intro f hf
    obtain ⟨r, -, hf⟩ := List.mem_flatMap.mp hf
    exact Pipeline.Run.isStep_of_mem_failures hf
  cases h with
  | rule he => exact (Rule.isStep_of_run he).isConfiguration
  | ruleBytes he => exact (isStep_of_run_apply he).isConfiguration
  | applyTree he =>
    obtain ⟨p, fault, -, rfl⟩ := Pipeline.of_mem_errors he
    exact IsStep.isConfiguration (.operation _ _ _)
  | @apply p event data phase s e he =>
    let r : Pipeline.Run := ⟨p, event, data, phase, s⟩
    exact r.reports.isConfiguration (fun _ => Pipeline.Run.isStep_of_mem_failures) he
  | applyAll he => exact (Pipeline.applyAll_reports _ _ _ _).isConfiguration hsteps he
  | rejected he =>
    cases Handler.rejection_of_error he <;> exact ⟨rfl, List.forall_mem_singleton.mpr rfl⟩
  | handedOn hout he => exact (Handler.reports_of_ok hout).isConfiguration hsteps he

end Error

/--
Errors of the configuration are found when pipelines are built, and only then. A pipeline is built
exactly when each path entry is well formed for its operation, and then has one rule for each, in
their order; otherwise the first entry that is not well formed says why.
-/
theorem configuration_checked (ts context data : List Transform) :
    ((∃ p, Pipeline.ofTransforms ts = .ok p) ↔ ∀ x ∈ entries ts, x.WellFormed) ∧
    (∀ p, Pipeline.ofTransforms ts = .ok p →
      p.length = (ts.map fun t => t.paths.length).sum ∧
      ∀ phase, p.phaseRules phase =
        ((entries ts).filter fun x => x.operation.phase == phase).map Entry.rule) ∧
    (∀ e, Pipeline.ofTransforms ts = .error e → Pipeline.Fault ts e ∧ e.isConfiguration = true) ∧
    (∀ e, Handler.ofTransforms context data = .error e →
      Handler.Fault context data e ∧ e.isConfiguration = true) ∧
    ∀ e : Error, e.Returned →
      e.isConfiguration = false ∧ ∀ f ∈ e.leaves, f.isConfiguration = false := by
  have hpipeline := Pipeline.ofTransforms_ruling ts
  have hhandler := Handler.ofTransforms_ruling context data
  refine ⟨⟨fun ⟨p, hp⟩ => (hpipeline.eq_ok_iff.mp hp).1, fun h => ⟨_, hpipeline.accepted h⟩⟩,
    fun p hp => ?_, fun e he => ?_, fun e he => ?_, fun e => Error.Returned.isConfiguration⟩
  · obtain ⟨-, rfl⟩ := hpipeline.eq_ok_iff.mp hp
    refine ⟨?_, fun phase => ?_⟩
    · rw [Pipeline.length, List.length_map]
      exact Pipeline.length_entriesFrom 0 ts
    · simp only [Pipeline.phaseRules, List.filter_map, Function.comp_def, Entry.phase_rule]
  · have hfault := hpipeline.eq_error_iff.mp he
    exact ⟨hfault, hfault.isConfiguration⟩
  · have hfault := hhandler.eq_error_iff.mp he
    exact ⟨hfault, hfault.isConfiguration⟩

/-- A configuration at the limits of what is well formed, one with a format that is none, and a
member that is no text. -/
theorem configuration_checked_format :
    let sound : List Transform :=
      [⟨.shift, [{ key := "a:b[65535]" }]⟩, ⟨.store, [{ key := "v" }, { key := "w" }]⟩]
    let flawed : List Transform :=
      [⟨.parse, [{ key := "a", value := "JSON" }, { key := "b", value := "yaml" }]⟩, ⟨.store, [{}]⟩]
    let parse : Parse := ⟨⟨[.key "a"]⟩, .json⟩
    let yaml : Error := .noted (Pipeline.entryNote 0 .parse) (.unsupportedFormat "yaml")
    (∃ p, Pipeline.ofTransforms sound = .ok p ∧ p.length = 3 ∧
      p.phaseRules .init = [.store ⟨"v", .root⟩, .store ⟨"w", .root⟩]) ∧
    (Pipeline.ofTransforms flawed = .error yaml ∧ Pipeline.Fault flawed yaml ∧
      yaml.message = "transformation #0 (parse): Unsupported parse format \"yaml\"") ∧
    (∃ e, Handler.ofTransforms sound flawed = .error e ∧ e.isConfiguration = true) ∧
    ∃ e ∈ ((Pipeline.applyTree ⟨[.parse parse]⟩ "evt" (.object [("a", .null)]) .init).run
      .fresh).1.2, e.isConfiguration = false := by
  intro sound flawed parse yaml
  have hsound : ∀ x ∈ entries sound, x.WellFormed := by decide +kernel
  obtain ⟨hbuilt, hrules, -⟩ := configuration_checked sound [] []
  obtain ⟨p, hp⟩ := hbuilt.mpr hsound
  obtain ⟨hlength, hphase⟩ := hrules p hp
  have hpipeline : Pipeline.ofTransforms flawed = .error yaml :=
    (Pipeline.ofTransforms_ruling flawed).refused
      ⟨[⟨0, .parse, { key := "a", value := "JSON" }⟩],
        ⟨0, .parse, { key := "b", value := "yaml" }⟩, [⟨1, .store, {}⟩], rfl, by decide +kernel,
        by decide +kernel, _, .format (by decide +kernel), rfl⟩
  obtain ⟨-, -, hfault, hhandler, hreturned⟩ := configuration_checked flawed sound flawed
  obtain ⟨hyaml, -⟩ := hfault yaml hpipeline
  have hbad := (Handler.ofTransforms_ruling sound flawed).refused (.inr ⟨hsound, yaml, hyaml, rfl⟩)
  have hfail : parse.fail (.notAText "null") ∈ ((Pipeline.applyTree ⟨[.parse parse]⟩ "evt"
      (.object [("a", .null)]) .init).run .fresh).1.2 := List.mem_cons_self
  refine ⟨⟨p, hp, hlength, ?_⟩, ⟨hpipeline, hyaml, by decide +kernel⟩,
    ⟨_, hbad, (hhandler _ hbad).2⟩, _, hfail, (hreturned _ (.applyTree hfail)).1⟩
  rw [hphase]
  decide +kernel

end EventPipeline
