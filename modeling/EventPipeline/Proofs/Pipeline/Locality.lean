import EventPipeline.Proofs.Work.Locality
import EventPipeline.Proofs.Work.Requests

/-!
A pipeline depends on nothing but its tree and the variables of its event, and changes nothing but
the variables that it keeps for its event (`Pipeline.applyTree_local`).
-/

namespace EventPipeline

/-- What is found under every name decides about the variables. -/
theorem Storage.variablesOf_eq_of_get?_eq {s s' : Storage} {event : String}
    (h : ∀ name, s.get? event name = s'.get? event name) :
    s.variablesOf event = s'.variablesOf event :=
  Keyed.eq_of_get?_eq (s.sorted_variablesOf event) (s'.sorted_variablesOf event) h

/-- Confined work finds the same where the variables of its event are the same. -/
theorem Work.Confined.run_eq {α : Type} {event : String} {work : Work α}
    (h : work.Confined event) {s s' : Shared}
    (hs : s.storage.variablesOf event = s'.storage.variablesOf event) :
    (work.run s).1 = (work.run s').1 ∧
      (work.run s).2.storage.variablesOf event = (work.run s').2.storage.variablesOf event := by
  obtain ⟨hresult, hleft, -⟩ := h.run s
  obtain ⟨hresult', hleft', -⟩ := h.run s'
  rw [hresult, hresult', hleft, hleft', hs]
  exact ⟨rfl, rfl⟩

namespace Pipeline

variable {event : String}

/-- What a phase may have changed of what events share. -/
structure Frame (p : Pipeline) (event : String) (phase : Phase) (s left : Shared) : Prop where
  /-- The variables of all other events are what they were. -/
  beside : Shared.SameBeside event s left
  /-- So are those of the event that the pipeline does not keep. -/
  get?_eq : ∀ name, name ∉ p.storedNames → left.storage.get? event name = s.storage.get? event name
  main : phase = .main → left = s

theorem applyTree_frame (p : Pipeline) (event : String) (t : Tree) (phase : Phase) (s : Shared) :
    p.Frame event phase s ((p.applyTree event t phase).run s).2 where
  beside := ((p.applyTree_alike event event t phase).confined.run s).2.2
  get?_eq _ hname := (p.applyTree_asks event t phase).get?_run hname s
  main hphase := by
    subst hphase
    exact (p.applyTree_main_asks event t).run_eq s

/--
Where all variables of its event have the same values, a phase comes to the same tree and the same
errors, and leaves variables of the same values. All else that events share stays as it was.
-/
theorem applyTree_local (p : Pipeline) (event : String) (t : Tree) (phase : Phase) {s s' : Shared}
    (hs : ∀ name, s.storage.get? event name = s'.storage.get? event name) :
    let run := (p.applyTree event t phase).run s
    let run' := (p.applyTree event t phase).run s'
    run.1 = run'.1 ∧
    (∀ name, run.2.storage.get? event name = run'.2.storage.get? event name) ∧
    p.Frame event phase s run.2 ∧ p.Frame event phase s' run'.2 := by
  intro run run'
  obtain ⟨hresult, hleft⟩ := (p.applyTree_alike event event t phase).confined.run_eq
    (Storage.variablesOf_eq_of_get?_eq hs)
  exact ⟨hresult, fun name => congrArg (Keyed.get? name) hleft,
    p.applyTree_frame event t phase s, p.applyTree_frame event t phase s'⟩

/-- Another event has a variable of the name that is filled in, and of one that is kept. -/
theorem applyTree_local_neighbour :
    let p : Pipeline := ⟨[.store ⟨"$kept", .root⟩, .add ⟨⟨[.key "copy"]⟩, "$given"⟩]⟩
    let s : Shared := ⟨0, Storage.empty.set "evt" "$given" (.bool true)⟩
    let s' : Shared := ⟨7, (s.storage.set "other" "$given" (.bool false)).set "other" "$kept" .null⟩
    (∀ name, s.storage.get? "evt" name = s'.storage.get? "evt" name) ∧
    (((p.applyTree "evt" .null .main).run s').1.1 = .object [("copy", .bool true)] ∧
      ((p.applyTree "evt" .null .main).run s').2 = s') ∧
    ((p.applyTree "evt" .null .init).run s').2.storage.get? "evt" "$given" = some (.bool true) := by
  intro p s s'
  have hs (name : String) : s.storage.get? "evt" name = s'.storage.get? "evt" name := by
    have hne : "evt" ≠ "other" := by decide
    refine congrArg (Keyed.get? name) ?_
    rw [Storage.variablesOf_set_of_ne _ hne, Storage.variablesOf_set_of_ne _ hne]
  obtain ⟨hresult, -, -, hmain⟩ := p.applyTree_local "evt" .null .main hs
  obtain ⟨-, -, -, hinit⟩ := p.applyTree_local "evt" .null .init hs
  have hrun : ((p.applyTree "evt" .null .main).run s).1.1 = .object [("copy", .bool true)] := by
    decide +kernel
  exact ⟨hs, ⟨(congrArg Prod.fst hresult.symm).trans hrun, hmain.main rfl⟩,
    hinit.get?_eq "$given" (by decide)⟩

end Pipeline

end EventPipeline
