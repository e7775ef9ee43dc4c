import EventPipeline.Pipeline
import EventPipeline.Proofs.Tree.Sound

/-!
Work on sound trees keeps sound variables and comes to sound trees (`Pipeline.applyTree_yields`),
whatever its requests are answered with, as long as the variables it is given are sound.
-/

namespace EventPipeline

/-- Every variable that is kept is sound. -/
def Storage.Sound (s : Storage) : Prop :=
  ∀ event name t, s.get? event name = some t → t.Sound

/-- A request to keep a value is for a sound one. -/
def Request.Sound : Request → Prop
  | .set _ _ value => value.Sound
  | _ => True

/-- An answer as it is given from a sound storage. -/
def Request.Fits : (request : Request) → request.Answer → Prop
  | .get .., value => ∀ t, value = some t → t.Sound
  | _, _ => True

namespace Storage.Sound

variable {s : Storage}

theorem set (h : s.Sound) (event name : String) {value : Tree} (hv : value.Sound) :
    (s.set event name value).Sound := by
  intro event' name' t ht
  by_cases he : event' = event
  · subst he
    by_cases hn : name' = name
    · subst hn
      rw [get?_set_self] at ht
      exact Option.some.inj ht ▸ hv
    · rw [get?_set_of_ne s event' hn] at ht
      exact h event' name' t ht
  · rw [get?, variablesOf_set_of_ne s he] at ht
    exact h event' name' t ht

theorem flush (h : s.Sound) (event : String) : (s.flush event).Sound := by
  intro event' name t ht
  by_cases he : event' = event
  · subst he
    rw [get?, variablesOf_flush_self] at ht
    cases ht
  · rw [get?, variablesOf_flush_of_ne s he] at ht
    exact h event' name t ht

theorem of_variablesOf (h : ∀ event, s.variablesOf event = []) : s.Sound := by
  intro event name t ht
  rw [get?, h event] at ht
  cases ht

end Storage.Sound

theorem Request.Sound.answer {request : Request} (h : request.Sound) {s : Shared}
    (hs : s.storage.Sound) :
    request.Fits (s.answer request).1 ∧ (s.answer request).2.storage.Sound := by
  cases request with
  | get event name => exact ⟨hs event name, hs⟩
  | set event name value => exact ⟨trivial, hs.set event name h⟩
  | flush event => exact ⟨trivial, hs.flush event⟩
  | _ => exact ⟨trivial, hs⟩

namespace Work

variable {α β : Type} {P : α → Prop} {Q : β → Prop} {work : Work α}

/-- The work keeps sound values only, and its result has the property, when it is given sound
values. -/
inductive Yields (P : α → Prop) : Work α → Prop where
  | done {a : α} : P a → Yields P (.done a)
  | ask {request : Request} {resume : request.Answer → Work α} :
    request.Sound → (∀ answer, request.Fits answer → Yields P (resume answer)) →
      Yields P (.ask request resume)

namespace Yields

theorem bind (h : Yields P work) {f : α → Work β} (hf : ∀ a, P a → Yields Q (f a)) :
    Yields Q (work.bind f) := by
  induction h with
  | done ha => exact hf _ ha
  | ask hr _ ih => exact .ask hr ih

theorem run (h : Yields P work) {s : Shared} (hs : s.storage.Sound) :
    P (work.run s).1 ∧ (work.run s).2.storage.Sound := by
  induction h generalizing s with
  | done ha => exact ⟨ha, hs⟩
  | ask hr _ ih =>
    obtain ⟨hfits, hs'⟩ := hr.answer hs
    exact ih _ hfits hs'

end Yields

end Work

open Work (Yields)

variable (event : String) {t : Tree}

theorem resolve_yields (name : String) :
    Yields (fun value => ∀ t, value = some t → t.Sound) (resolve event name) := by
  unfold resolve
  split
  · exact .done nofun
  · exact .ask trivial fun value hv => .done fun t ht => hv t (Option.filter_eq_some_iff.mp ht).1

namespace Add

theorem resolveAll_yields (names : List String) :
    Yields (fun vars => ∀ v ∈ vars, ∀ t, v.value = some t → t.Sound) (resolveAll event names) := by
  induction names with
  | nil => exact .done nofun
  | cons name names ih =>
    refine (resolve_yields event name).bind fun value hvalue => ih.bind fun rest hrest => ?_
    refine .done fun v hv => ?_
    rcases List.mem_cons.mp hv with rfl | hv
    · exact hvalue
    · exact hrest v hv

theorem compose_yields (a : Add) : Yields Tree.Sound (a.compose event) :=
  .ask trivial fun _ _ =>
    (resolveAll_yields event _).bind fun _ hvars => .done (Tree.Sound.fill hvars _)

theorem transform_yields (a : Add) (ht : t.Sound) : Yields Tree.Sound (a.transform event t) :=
  (a.compose_yields event).bind fun _ hvalue => .done (ht.assign hvalue _)

end Add

theorem Delete.transform_yields (d : Delete) (ht : t.Sound) :
    Yields Tree.Sound (d.transform event t) := by
  have hfilter : Yields (fun _ => True) (d.filterFor event) := by
    unfold filterFor
    split
    · exact .done trivial
    · refine .ask trivial fun value _ => ?_
      split <;> exact .done trivial
  refine hfilter.bind fun filter _ => .done ?_
  cases hp : prune d.key d.separator filter "" t with
  | none => exact .null
  | some kept => exact ht.prune hp

theorem Shift.transform_yields (s : Shift) (ht : t.Sound) :
    Yields Tree.Sound (s.transform event t) := by
  have hallows (node : Tree) : Yields (fun _ => True) (s.allows event node) := by
    unfold allows
    split
    · exact .done trivial
    · refine (resolve_yields event _).bind fun value _ => ?_
      split <;> exact .done trivial
  obtain ⟨hremaining, hnode⟩ := ht.extract s.source.steps
  unfold transform
  split
  · exact .done ht
  · next remaining node he =>
    rw [he] at hremaining hnode
    refine (hallows node).bind fun allowed _ => .done ?_
    split
    · exact hremaining.assign (hnode node rfl) _
    · exact ht

theorem Store.transform_yields (s : Store) (ht : t.Sound) :
    Yields Tree.Sound (s.transform event t) := by
  refine .ask ?_ fun _ _ => .done ht
  change ((t.read? s.path.steps).getD .null).Sound
  cases hr : t.read? s.path.steps with
  | none => exact .null
  | some node => exact ht.read? hr

theorem Rule.transform_yields (r : Rule) (ht : t.Sound) :
    Yields (fun result => ∀ next, result = .ok next → next.Sound) (r.transform event t) := by
  have hok {work : Work Tree} (h : Yields Tree.Sound work) :
      Yields (fun result : Except Error Tree => ∀ next, result = .ok next → next.Sound)
        (work.bind fun t => .done (.ok t)) :=
    h.bind fun _ hs => .done fun _ hn => Except.ok.inj hn ▸ hs
  cases r with
  | add a => exact hok (a.transform_yields event ht)
  | delete d => exact hok (d.transform_yields event ht)
  | shift s => exact hok (s.transform_yields event ht)
  | store s => exact hok (s.transform_yields event ht)
  | parse p => exact .done fun next hn => ht.parse hn

namespace Pipeline

theorem applyRules_yields (rules : List Rule) (ht : t.Sound) :
    Yields (fun result => result.1.Sound) (applyRules event t rules) := by
  induction rules generalizing t with
  | nil => exact .done ht
  | cons r rules ih =>
    refine (r.transform_yields event ht).bind fun result hresult => ?_
    cases result with
    | ok next => exact ih (hresult next rfl)
    | error e => exact (ih ht).bind fun _ h => .done h

/-- A pipeline makes sound trees of sound trees. -/
theorem applyTree_yields (p : Pipeline) (phase : Phase) (ht : t.Sound) :
    Yields (fun result => result.1.Sound) (p.applyTree event t phase) :=
  applyRules_yields event _ ht

end Pipeline

end EventPipeline
