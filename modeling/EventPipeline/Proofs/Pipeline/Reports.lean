import EventPipeline.Proofs.Pipeline.Failures

/-!
What is reported of the steps that fail. Their errors are collected for each phase, and again for
all phases; whether there are none, one or several, the errors of the steps can be read off what is
reported, in their order, and its wording joins theirs (`Reports`).
-/

namespace EventPipeline

namespace Error

variable {e : Error} {es : List Error}

/-- The error of a step: bytes that hold no tree, or a rule that could not do its work. -/
inductive IsStep : Error → Prop where
  | decode (problem : Problem) : IsStep (.decode problem)
  | operation (op : Operation) (path : String) (fault : OperationFault) :
    IsStep (.operation op path fault)

theorem IsStep.leaves_eq (h : e.IsStep) : e.leaves = [e] := by
  cases h <;> rfl

/-- However errors of steps are collected, none of them is the configuration's fault. -/
theorem isConfiguration_of_leaves (h : ∀ f ∈ e.leaves, f.IsStep) :
    e.isConfiguration = false ∧ ∀ f ∈ e.leaves, f.isConfiguration = false := by
  have hstep {f : Error} (hf : f.IsStep) : f.isConfiguration = false := by
    cases hf <;> rfl
  refine ⟨?_, fun f hf => hstep (h f hf)⟩
  cases e with
  | aggregate => rfl
  | _ => exact hstep (h _ List.mem_cons_self)

theorem IsStep.isConfiguration (h : e.IsStep) :
    e.isConfiguration = false ∧ ∀ f ∈ e.leaves, f.isConfiguration = false :=
  isConfiguration_of_leaves (h.leaves_eq ▸ List.forall_mem_singleton.mpr h)

theorem messages_eq_map (es : List Error) : messages es = es.map message := by
  induction es with
  | nil => rfl
  | cons e es ih => rw [messages, ih, List.map_cons]

theorem message_aggregate (es : List Error) :
    (aggregate es).message = "; ".intercalate (es.map message) := by
  rw [← messages_eq_map]
  rfl

/-- The wording of an error joins those of the errors that it is made of, of which there are
some. -/
def Joins (e : Error) : Prop :=
  e.leaves ≠ [] ∧ e.message = "; ".intercalate (e.leaves.map message)

theorem IsStep.joins (h : e.IsStep) : e.Joins := by
  rw [Joins, h.leaves_eq, List.map_singleton, String.intercalate_singleton]
  exact ⟨List.cons_ne_nil e [], rfl⟩

theorem leavesOf_ne_nil (h : ∀ e ∈ es, e.Joins) (hes : es ≠ []) : leavesOf es ≠ [] := by
  obtain ⟨e, es, rfl⟩ := List.exists_cons_of_ne_nil hes
  intro hnil
  exact (h e List.mem_cons_self).1 (List.append_eq_nil_iff.mp hnil).1

/-- Joining the wordings of errors joins those of all that they are made of. -/
theorem intercalate_leavesOf (h : ∀ e ∈ es, e.Joins) :
    "; ".intercalate ((leavesOf es).map message) = "; ".intercalate (es.map message) := by
  induction es with
  | nil => rfl
  | cons e es ih =>
    obtain ⟨⟨hne, hmessage⟩, hes⟩ := List.forall_mem_cons.mp h
    rw [leavesOf, List.map_append, List.map_cons]
    -- Behind the last error there is no separator.
    by_cases hnil : es = []
    · subst hnil
      rw [leavesOf, List.map_nil, List.append_nil, String.intercalate_singleton, ← hmessage]
    · rw [String.intercalate_append_of_ne_nil (by simpa using hne)
          (by simpa using leavesOf_ne_nil hes hnil),
        String.intercalate_cons_of_ne_nil (by simpa using hnil), ih hes, hmessage]

theorem Joins.collect (h : ∀ e ∈ es, e.Joins) (he : Error.collect es = some e) : e.Joins := by
  rcases es with _ | ⟨f, _ | ⟨g, es⟩⟩
  · cases he
  · obtain rfl : f = e := Option.some.inj he
    exact h f List.mem_cons_self
  · obtain rfl : .aggregate (f :: g :: es) = e := Option.some.inj he
    refine ⟨leavesOf_ne_nil h (List.cons_ne_nil _ _), ?_⟩
    rw [message_aggregate, leaves, intercalate_leavesOf h]

end Error

/-- A rule that fails is a step that fails. -/
theorem Rule.isStep_of_run {r : Rule} {event : String} {t : Tree} {s : Shared} {e : Error}
    (he : ((r.transform event t).run s).1 = .error e) : e.IsStep := by
  obtain ⟨-, p, fault, -, rfl⟩ := of_run_error (Prod.ext he rfl)
  exact .operation _ _ _

/-- What is reported is made of the errors of the steps that failed, in their order, and joins their
wordings. -/
structure Reports (reported : Option Error) (failures : List Error) : Prop where
  leaves : (reported.map Error.leaves).getD [] = failures
  joins : ∀ e, reported = some e → e.Joins

namespace Reports

variable {reported : Option Error} {failures : List Error}

theorem collect (h : ∀ e ∈ failures, e.IsStep) : Reports (Error.collect failures) failures where
  leaves := by
    rw [Error.leaves_collect]
    exact Error.leavesOf_eq_self fun e he => (h e he).leaves_eq
  joins _ he := Error.Joins.collect (fun e he => (h e he).joins) he

/-- What is reported of several runs may be collected once more. -/
theorem flatMap {ι : Type} {runs : List ι} {reported : ι → Option Error} {failures : ι → List Error}
    (h : ∀ r ∈ runs, Reports (reported r) (failures r)) :
    Reports (Error.collect (runs.flatMap fun r => (reported r).toList))
      (runs.flatMap failures) where
  leaves := by
    rw [Error.leaves_collect]
    induction runs with
    | nil => rfl
    | cons r runs ih =>
      obtain ⟨hr, hruns⟩ := List.forall_mem_cons.mp h
      have hone : Error.leavesOf (reported r).toList = failures r := by
        rw [← hr.leaves]
        cases reported r with
        | none => rfl
        | some e => exact List.append_nil _
      rw [List.flatMap_cons, List.flatMap_cons, Error.leavesOf_append, hone, ih hruns]
  joins _ he := by
    refine Error.Joins.collect (fun e he => ?_) he
    obtain ⟨r, hr, he⟩ := List.mem_flatMap.mp he
    exact (h r hr).joins e (Option.mem_toList.mp he)

/-- Nothing is reported only when nothing failed. -/
theorem eq_none_iff (h : Reports reported failures) : reported = none ↔ failures = [] := by
  rw [← h.leaves]
  cases reported with
  | none => simp
  | some e => simpa using (h.joins e rfl).1

theorem isConfiguration (h : Reports reported failures) (hsteps : ∀ f ∈ failures, f.IsStep)
    {e : Error} (he : reported = some e) :
    e.isConfiguration = false ∧ ∀ f ∈ e.leaves, f.isConfiguration = false := by
  have hleaves : e.leaves = failures := by
    rw [← h.leaves, he]
    rfl
  exact Error.isConfiguration_of_leaves (hleaves ▸ hsteps)

end Reports

namespace Pipeline

/-- A phase of a pipeline over the bytes of a tree, and what it finds. -/
structure Run where
  pipeline : Pipeline
  event : String
  data : ByteArray
  phase : Phase
  shared : Shared

namespace Run

def outcome (r : Run) : Output × Shared := (r.pipeline.apply r.event r.data r.phase).run r.shared

/-- The errors of the steps that fail in a run: the bytes cannot be read, or rules fail, each at its
place. -/
def failures (r : Run) : List Error :=
  if (r.pipeline.phaseRules r.phase).isEmpty then []
  else
    match Json.decode r.data with
    | .error problem => [.decode problem]
    | .ok t =>
      (List.range r.pipeline.length).filterMap (r.pipeline.failure? r.event t r.phase r.shared)

variable {r : Run}

theorem isStep_of_failure? {p : Pipeline} {event : String} {t : Tree} {phase : Phase} {s : Shared}
    {i : Nat} {e : Error} (h : p.failure? event t phase s i = some e) : e.IsStep := by
  obtain ⟨rule, -, h⟩ := Option.bind_eq_some_iff.mp h
  split at h
  · rw [errorBehind?] at h
    split at h
    · cases h
    · next he =>
      cases h
      exact Rule.isStep_of_run he
  · cases h

theorem isStep_of_mem_failures {e : Error} (he : e ∈ r.failures) : e.IsStep := by
  rw [failures] at he
  split at he
  · cases he
  · split at he
    · cases List.mem_singleton.mp he
      exact .decode _
    · obtain ⟨i, -, hi⟩ := List.mem_filterMap.mp he
      exact isStep_of_failure? hi

theorem error_outcome (r : Run) : r.outcome.1.error = Error.collect r.failures := by
  rw [outcome, Pipeline.apply, failures]
  split
  · rfl
  · cases Json.decode r.data with
    | error problem => rfl
    | ok t =>
      obtain ⟨-, herrors⟩ := r.pipeline.run_kept r.event t r.phase r.shared r.pipeline.length
      rw [length, List.take_length] at herrors
      rw [Work.run_bind]
      exact congrArg Error.collect herrors

/-- A run reports the errors of the steps that fail in it. -/
theorem reports (r : Run) : Reports r.outcome.1.error r.failures := by
  rw [r.error_outcome]
  exact .collect fun _ => isStep_of_mem_failures

end Run

/-- The runs that make up one over both phases. -/
def runs (p : Pipeline) (event : String) (data : ByteArray) (s : Shared) : List Run :=
  let first : Run := ⟨p, event, data, .init, s⟩
  [first, ⟨p, event, first.outcome.1.data, .main, first.outcome.2⟩]

theorem applyAll_reports (p : Pipeline) (event : String) (data : ByteArray) (s : Shared) :
    Reports ((p.applyAll event data).run s).1.error ((p.runs event data s).flatMap Run.failures) := by
  let runs := p.runs event data s
  have h : Reports (Error.collect (runs.flatMap fun r => r.outcome.1.error.toList))
      (runs.flatMap Run.failures) := .flatMap fun r _ => r.reports
  rw [applyAll, Work.run_bind, Work.run_bind]
  simpa [runs, Pipeline.runs, Run.outcome, Work.run] using h

end Pipeline

end EventPipeline
