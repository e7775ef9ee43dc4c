import EventPipeline.Pipeline

/-!
What is asked for on the way: a rule looks up variables of its event, and a store keeps one, under
its name (`Rule.transform_asks`). Work that keeps no variable leaves everything as it is
(`Work.Asks.run_eq`); otherwise only the variables that it keeps may change
(`Work.Asks.get?_run`).
-/

namespace EventPipeline

/-- The request looks up variables of the event, or keeps one under one of the names. -/
def Request.Within (event : String) (names : List String) : Request → Prop
  | .get e _ | .keys e => e = event
  | .set e name _ => e = event ∧ name ∈ names
  | .ticket | .flush _ => False

namespace Request.Within

variable {event name : String} {names names' : List String} {request : Request}

theorem mono (h : request.Within event names) (hn : ∀ name ∈ names, name ∈ names') :
    request.Within event names' := by
  cases request with
  | set e name value => exact ⟨h.1, hn name h.2⟩
  | _ => exact h

theorem answer_eq (h : request.Within event []) (s : Shared) : (s.answer request).2 = s := by
  cases request with
  | get | keys => rfl
  | set => exact absurd h.2 List.not_mem_nil
  | ticket | flush => exact h.elim

theorem get?_answer (h : request.Within event names) (hn : name ∉ names) (s : Shared) :
    (s.answer request).2.storage.get? event name = s.storage.get? event name := by
  cases request with
  | get | keys => rfl
  | set e name' value =>
    obtain ⟨rfl, hname'⟩ := h
    have hne : name ≠ name' := fun h => hn (h ▸ hname')
    exact Storage.get?_set_of_ne s.storage e hne value
  | ticket | flush => exact h.elim

end Request.Within

namespace Work

variable {α β : Type} {P Q : Request → Prop} {work : Work α}

/-- Every request of the work has the property, whatever those before it are answered with. -/
inductive Asks (P : Request → Prop) : Work α → Prop where
  | done (a : α) : Asks P (.done a)
  | ask {request : Request} {resume : request.Answer → Work α} :
    P request → (∀ answer, Asks P (resume answer)) → Asks P (.ask request resume)

namespace Asks

theorem bind (h : Asks P work) {f : α → Work β} (hf : ∀ a, Asks P (f a)) :
    Asks P (work.bind f) := by
  induction h with
  | done a => exact hf a
  | ask hr _ ih => exact .ask hr ih

theorem mono (h : Asks P work) (hPQ : ∀ request, P request → Q request) : Asks Q work := by
  induction h with
  | done a => exact .done a
  | ask hr _ ih => exact .ask (hPQ _ hr) ih

variable {event name : String} {names : List String}

/-- Work that only looks variables up leaves everything as it is. -/
theorem run_eq (h : Asks (Request.Within event []) work) (s : Shared) : (work.run s).2 = s := by
  induction h generalizing s with
  | done a => rfl
  | @ask request resume hr _ ih => exact (ih _ _).trans (hr.answer_eq s)

/-- A variable that is not kept has the value it had. -/
theorem get?_run (h : Asks (Request.Within event names) work) (hn : name ∉ names) (s : Shared) :
    (work.run s).2.storage.get? event name = s.storage.get? event name := by
  induction h generalizing s with
  | done a => rfl
  | @ask request resume hr _ ih => exact (ih _ _).trans (hr.get?_answer hn s)

end Asks

end Work

open Work (Asks)
open Request (Within)

/-- The names under which a rule keeps variables. -/
def Rule.storedNames : Rule → List String
  | .store s => [s.variableName]
  | _ => []

variable (event : String)

theorem resolve_asks (name : String) : Asks (Within event []) (resolve event name) := by
  unfold resolve
  split
  · exact .done _
  · exact .ask rfl fun _ => .done _

theorem Add.compose_asks (a : Add) : Asks (Within event []) (a.compose event) := by
  have hall (names : List String) : Asks (Within event []) (resolveAll event names) := by
    induction names with
    | nil => exact .done _
    | cons name names ih => exact (resolve_asks event name).bind fun _ => ih.bind fun _ => .done _
  exact .ask rfl fun names => (hall _).bind fun _ => .done _

theorem Delete.filterFor_asks (d : Delete) : Asks (Within event []) (d.filterFor event) := by
  unfold filterFor
  split
  · exact .done _
  · refine .ask rfl fun value => ?_
    split <;> exact .done _

theorem Shift.transform_asks (s : Shift) (t : Tree) :
    Asks (Within event []) (s.transform event t) := by
  have hallows (node : Tree) : Asks (Within event []) (s.allows event node) := by
    unfold allows
    split
    · exact .done _
    · refine (resolve_asks event _).bind fun value => ?_
      split <;> exact .done _
  unfold transform
  split
  · exact .done _
  · exact (hallows _).bind fun _ => .done _

theorem Rule.transform_asks (r : Rule) (t : Tree) :
    Asks (Within event r.storedNames) (r.transform event t) := by
  cases r with
  | add a => exact ((a.compose_asks event).bind fun _ => .done _).bind fun _ => .done _
  | delete d => exact ((d.filterFor_asks event).bind fun _ => .done _).bind fun _ => .done _
  | shift s => exact (s.transform_asks event t).bind fun _ => .done _
  | store s => exact .ask ⟨rfl, List.mem_singleton_self _⟩ fun _ => .done _
  | parse p => exact .done _

/-- Rules of the second phase keep no variables. -/
theorem Rule.storedNames_of_main {r : Rule} (h : r.phase = .main) : r.storedNames = [] := by
  cases r with
  | store s => cases h
  | _ => rfl

namespace Pipeline

/-- The names under which a pipeline keeps variables. -/
def storedNames (p : Pipeline) : List String := p.rules.flatMap Rule.storedNames

theorem applyRules_asks (rules : List Rule) (t : Tree) :
    Asks (Within event (rules.flatMap Rule.storedNames)) (applyRules event t rules) := by
  induction rules generalizing t with
  | nil => exact .done _
  | cons r rules ih =>
    rw [List.flatMap_cons]
    have hrest (t : Tree) : Asks (Within event (r.storedNames ++ rules.flatMap Rule.storedNames))
        (applyRules event t rules) :=
      (ih t).mono fun _ hq => hq.mono fun _ => List.mem_append_right _
    refine Asks.bind ((r.transform_asks event t).mono fun _ hq =>
      hq.mono fun _ => List.mem_append_left _) fun result => ?_
    cases result with
    | ok next => exact hrest next
    | error e => exact (hrest t).bind fun _ => .done _

theorem applyTree_asks (p : Pipeline) (t : Tree) (phase : Phase) :
    Asks (Within event p.storedNames) (p.applyTree event t phase) := by
  refine (applyRules_asks event _ t).mono fun _ hq => hq.mono fun name hname => ?_
  obtain ⟨r, hr, hname⟩ := List.mem_flatMap.mp hname
  exact List.mem_flatMap.mpr ⟨r, (mem_phaseRules.mp hr).1, hname⟩

/-- The second phase keeps no variables. -/
theorem applyTree_main_asks (p : Pipeline) (t : Tree) :
    Asks (Within event []) (p.applyTree event t .main) := by
  have hnil : (p.phaseRules .main).flatMap Rule.storedNames = [] :=
    List.flatMap_eq_nil_iff.mpr fun _ hr => Rule.storedNames_of_main (mem_phaseRules.mp hr).2
  exact hnil ▸ applyRules_asks event (p.phaseRules .main) t

end Pipeline

end EventPipeline
