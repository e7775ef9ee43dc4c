import EventPipeline.Proofs.Handler.Rebuild
import EventPipeline.Proofs.Pipeline.Reports

/-!
What is reported of an event that is handed on. It goes through four runs (`Handler.runsOf`), and
nothing that fails in one of them is lost or changes its place (`Handler.transform_reports`).
-/

namespace EventPipeline.Handler

open Pipeline (Run)

/-- The runs that an event goes through: in each phase the context, and then the payload. -/
def runs (h : Handler) (key : String) (e : Event) (s : Shared) : List Run :=
  let context₁ : Run := ⟨h.context, key, Json.encode e.toContext.tree, .init, s⟩
  let data₁ : Run := ⟨h.data, key, Json.encode e.payload, .init, context₁.outcome.2⟩
  let context₂ : Run := ⟨h.context, key, context₁.outcome.1.data, .main, data₁.outcome.2⟩
  let data₂ : Run := ⟨h.data, key, data₁.outcome.1.data, .main, context₂.outcome.2⟩
  [context₁, data₁, context₂, data₂]

/-- The runs of the event that has its turn alone. -/
def runsOf (h : Handler) (e : Event) (s : Shared) : List Run :=
  h.runs (storageKey e.id s.nextTicket) e { s with nextTicket := s.nextTicket + 1 }

variable {h : Handler} {e : Event} {s : Shared} {out : Transformed}

/-- What is handed on with an event is what the runs report, collected once more. -/
theorem error_eq_collect (hout : ((h.transform e).run s).1 = .ok out) :
    out.error = Error.collect ((h.runsOf e s).flatMap fun r => r.outcome.1.error.toList) := by
  rw [h.run_transform_of_json (hasJsonData_of_ok hout)] at hout
  simp only [runPhases, Work.run_bind, Work.run] at hout
  obtain ⟨c, t, -, -, -, herror⟩ := rebuild_eq_ok_iff.mp hout
  rw [herror]
  simp only [runsOf, runs, Run.outcome, List.flatMap_cons, List.flatMap_nil, List.append_nil,
    List.append_assoc]

theorem reports_of_ok (hout : ((h.transform e).run s).1 = .ok out) :
    Reports out.error ((h.runsOf e s).flatMap Run.failures) := by
  rw [error_eq_collect hout]
  exact .flatMap fun r _ => r.reports

/--
An event is handed on without an error exactly when none of its runs reports one. Otherwise the
errors of the steps that failed, run by run and within a run in the order of the rules, can be read
off the error, and its wording joins theirs.
-/
theorem transform_reports (h : Handler) (e : Event) (s : Shared) {out : Transformed}
    (hout : ((h.transform e).run s).1 = .ok out) :
    (out.error = none ↔ ∀ r ∈ h.runsOf e s, r.outcome.1.error = none) ∧
    (out.error.map Error.leaves).getD [] = (h.runsOf e s).flatMap Run.failures ∧
    ∀ error, out.error = some error →
      error.message = "; ".intercalate (error.leaves.map Error.message) := by
  have hreports := reports_of_ok hout
  refine ⟨?_, hreports.leaves, fun error herror => (hreports.joins error herror).2⟩
  rw [hreports.eq_none_iff, List.flatMap_eq_nil_iff]
  exact forall₂_congr fun r _ => r.reports.eq_none_iff.symm

/-- Two texts of the context and a member of the payload cannot be parsed: of the three errors, the
first two have been collected before. -/
theorem transform_reports_nested :
    let parse (name : String) : Rule := .parse ⟨⟨[.key name]⟩, .json⟩
    let h : Handler := ⟨⟨[parse "source", parse "type"]⟩, ⟨[parse "a"]⟩⟩
    let e : Event := { Event.ofAttributes "1" "s" "t" with data := some (.object [("a", .null)]) }
    let runs := h.runsOf e .fresh
    runs.map (fun r => r.failures.length) = [2, 1, 0, 0] ∧
    ∃ out error, ((h.transform e).run .fresh).1 = .ok out ∧ out.error = some error ∧
      error.leaves = runs.flatMap Run.failures ∧
      error.message = "; ".intercalate (error.leaves.map Error.message) := by
  intro parse h e runs
  have hfailures : runs.map (fun r => r.failures.length) = [2, 1, 0, 0] := by decide +kernel
  have hpartial : ((h.transform e).run .fresh).1.toOption.map (·.error.isSome) = some true := by
    decide +kernel
  obtain ⟨out, hout, hsome⟩ := Option.map_eq_some_iff.mp hpartial
  obtain ⟨error, herror⟩ := Option.isSome_iff_exists.mp hsome
  have hout := eq_ok_of_toOption hout
  obtain ⟨-, hleaves, hmessage⟩ := h.transform_reports e .fresh hout
  rw [herror] at hleaves
  exact ⟨hfailures, out, error, hout, herror, hleaves, hmessage error herror⟩

end EventPipeline.Handler
