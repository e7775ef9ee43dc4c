import EventPipeline.Storage

/-!
A storage answers from its trace, the changes that were made to it in their order: a variable has
the value it was last set to, unless its event was flushed since, and all answers agree with that
(`Storage.follows_trace`). Scopes may be opened and closed in between; one that is closed flushes
its event. Scopes that are closed in the reverse order of their opening are those of
`Storage.inScope` (`Storage.Session.play_scope`).
-/

namespace EventPipeline.Storage

/-- A change of the variables of one event. -/
inductive Change where
  | set (event name : String) (value : Tree)
  | flush (event : String)
deriving DecidableEq

namespace Change

def event : Change → String
  | .set event .. | .flush event => event

/-- Whether it depends on the change what is found under a name. -/
def Settles (event name : String) : Change → Prop
  | .set event' name' _ => event' = event ∧ name' = name
  | .flush event' => event' = event

end Change

/-- A storage after a change. -/
def change (s : Storage) : Change → Storage
  | .set event name value => s.set event name value
  | .flush event => s.flush event

/-- The value that a variable was last set to, and nothing has been done to it since. -/
def LastSet (trace : List Change) (event name : String) (value : Tree) : Prop :=
  ∃ before after, trace = before ++ .set event name value :: after ∧
    ∀ c ∈ after, ¬ c.Settles event name

/-- What is done with a storage. -/
inductive Action where
  | set (event name : String) (value : Tree)
  | flush (event : String)
  /-- Opens a scope for an event. -/
  | enter (event : String)
  /-- Closes one of the open scopes, counted from the one that was opened last. -/
  | leave (scope : Nat)

/-- The event that an action is about; `scopes` are the events of the open scopes. -/
def Action.event? (scopes : List String) : Action → Option String
  | .set event .. | .flush event | .enter event => some event
  | .leave i => scopes[i]?

/-- The changes that actions come to; `scopes` are the events of the open scopes. -/
def changes (scopes : List String) : List Action → List Change
  | [] => []
  | .set event name value :: actions => .set event name value :: changes scopes actions
  | .flush event :: actions => .flush event :: changes scopes actions
  | .enter event :: actions => changes (event :: scopes) actions
  | .leave i :: actions =>
    match scopes[i]? with
    | none => changes scopes actions
    | some event => .flush event :: changes (scopes.eraseIdx i) actions

/-- A storage in use, with the events of the open scopes; the one opened last comes first. -/
structure Session where
  storage : Storage
  scopes : List String

namespace Session

def start : Session := ⟨.empty, []⟩

def act (s : Session) : Action → Session
  | .set event name value => { s with storage := s.storage.set event name value }
  | .flush event => { s with storage := s.storage.flush event }
  | .enter event => { s with scopes := event :: s.scopes }
  | .leave i =>
    match s.scopes[i]? with
    | none => s
    | some event => ⟨s.storage.flush event, s.scopes.eraseIdx i⟩

def play (s : Session) (actions : List Action) : Session := actions.foldl act s

theorem play_append (s : Session) (first second : List Action) :
    s.play (first ++ second) = (s.play first).play second := List.foldl_append

/-- Of all actions nothing but their changes is left in the storage. -/
theorem storage_play (s : Session) (actions : List Action) :
    (s.play actions).storage = (changes s.scopes actions).foldl change s.storage := by
  induction actions generalizing s with
  | nil => rfl
  | cons a actions ih =>
    refine (ih (s.act a)).trans ?_
    cases a with
    | leave i =>
      simp only [act, changes]
      cases s.scopes[i]? <;> rfl
    | _ => rfl

/-- Scopes that are closed in the reverse order of their opening. -/
inductive Nested : List Action → Prop where
  | nil : Nested []
  | set (event name : String) (value : Tree) {rest : List Action} :
    Nested rest → Nested (.set event name value :: rest)
  | flush (event : String) {rest : List Action} : Nested rest → Nested (.flush event :: rest)
  | scope (event : String) {body rest : List Action} :
    Nested body → Nested rest → Nested (.enter event :: (body ++ .leave 0 :: rest))

/-- Scopes that were open before are left alone. -/
theorem play_nested {body : List Action} (h : Nested body) (storage : Storage)
    (scopes : List String) :
    (Session.mk storage scopes).play body =
      ⟨((Session.mk storage []).play body).storage, scopes⟩ := by
  induction h generalizing storage scopes with
  | nil => rfl
  | set event name value _ ih => exact ih (storage.set event name value) scopes
  | flush event _ ih => exact ih (storage.flush event) scopes
  | @scope event body rest _ _ ihbody ihrest =>
    -- Both sides close the scope on the same storage; what follows is played from there.
    have hscope (scopes : List String) :
        (Session.mk storage scopes).play (.enter event :: (body ++ .leave 0 :: rest)) =
          (Session.mk (((Session.mk storage []).play body).storage.flush event) scopes).play
            rest := by
      change (Session.mk storage (event :: scopes)).play (body ++ .leave 0 :: rest) = _
      rw [play_append, ihbody]
      rfl
    rw [hscope scopes, hscope [], ihrest]

/-- A scope around a body runs the body in the scope of the event. -/
theorem play_scope {body : List Action} (h : Nested body) (event : String) (s : Session) :
    s.play (.enter event :: (body ++ [.leave 0])) =
      ⟨(s.storage.inScope event fun storage =>
        ((), ((Session.mk storage []).play body).storage)).2, s.scopes⟩ := by
  change (Session.mk s.storage (event :: s.scopes)).play (body ++ [.leave 0]) = _
  rw [play_append, play_nested h]
  rfl

end Session

/-- Every answer of the storage is the one that its trace gives. -/
structure Follows (s : Storage) (trace : List Change) : Prop where
  get?_iff : ∀ event name value,
    s.get? event name = some value ↔ LastSet trace event name value
  nodup_keys : ∀ event, (s.keys event).Nodup
  mem_keys_iff : ∀ event name, name ∈ s.keys event ↔ ∃ value, s.get? event name = some value
  nodup_eventIds : s.eventIds.Nodup
  mem_eventIds_iff : ∀ event, event ∈ s.eventIds ↔ s.keys event ≠ []
  isEmpty_iff : s.isEmpty = true ↔ s.eventIds = []

/-- All that is asked about an event is answered in the same way. -/
structure AnswersAlike (event : String) (s s' : Storage) : Prop where
  get? : ∀ name, s'.get? event name = s.get? event name
  keys : s'.keys event = s.keys event
  mem_eventIds_iff : event ∈ s'.eventIds ↔ event ∈ s.eventIds

variable {s s' : Storage} {event name : String} {value : Tree}

theorem mem_keys_iff : name ∈ s.keys event ↔ ∃ value, s.get? event name = some value := by
  rw [keys, Keyed.mem_keys_iff, Option.isSome_iff_exists]
  rfl

/-- No event is kept without a variable, so the events are those with variables. -/
theorem mem_eventIds_iff : event ∈ s.eventIds ↔ s.variablesOf event ≠ [] := by
  rw [eventIds, Keyed.mem_keys_iff, variablesOf]
  cases h : Keyed.get? event s.events with
  | none => simp
  | some vars => simpa using s.ne_nil _ (Keyed.mem_of_get? h)

theorem keys_eq_nil_iff : s.keys event = [] ↔ s.variablesOf event = [] := List.map_eq_nil_iff

theorem isEmpty_iff : s.isEmpty = true ↔ s.eventIds = [] := by
  rw [isEmpty, eventIds, Keyed.keys, List.isEmpty_iff, List.map_eq_nil_iff]

/-- The answers about an event come from its variables. -/
theorem AnswersAlike.of_variablesOf (h : s'.variablesOf event = s.variablesOf event) :
    AnswersAlike event s s' where
  get? name := congrArg (Keyed.get? name) h
  keys := congrArg Keyed.keys h
  mem_eventIds_iff := by rw [Storage.mem_eventIds_iff, Storage.mem_eventIds_iff, h]

/-- A change is about the variables of its own event only. -/
theorem variablesOf_change_of_ne (s : Storage) {c : Change} (h : event ≠ c.event) :
    (s.change c).variablesOf event = s.variablesOf event := by
  cases c with
  | set event' name value => exact variablesOf_set_of_ne s h name value
  | flush event' => exact variablesOf_flush_of_ne s h

/-- What is found after a change was set by it, or was there and the change let it be. -/
theorem get?_change_iff (s : Storage) (c : Change) :
    (s.change c).get? event name = some value ↔
      c = .set event name value ∨ ¬ c.Settles event name ∧ s.get? event name = some value := by
  by_cases he : event = c.event
  · subst he
    cases c with
    | set event name' value' =>
      change (s.set event name' value').get? event name = some value ↔ _
      by_cases hn : name' = name
      · subst hn
        rw [get?_set_self]
        simp [Change.Settles, Change.event]
      · rw [get?_set_of_ne s event (Ne.symm hn)]
        simp [Change.Settles, hn, Change.event]
    | flush event =>
      change (s.flush event).get? event name = some value ↔ _
      rw [get?, variablesOf_flush_self]
      simp [Change.Settles, Change.event]
  · have hset : c ≠ .set event name value := fun h => he (h ▸ rfl)
    have hsettles : ¬ c.Settles event name := fun h => by
      cases c with
      | set event' name' value' => exact he h.1.symm
      | flush event' => exact he h.symm
    rw [get?, variablesOf_change_of_ne s he, or_iff_right hset, and_iff_right hsettles, get?]

theorem lastSet_cons_iff (c : Change) (trace : List Change) :
    LastSet (c :: trace) event name value ↔
      LastSet trace event name value ∨
        c = .set event name value ∧ ∀ d ∈ trace, ¬ d.Settles event name := by
  constructor
  · rintro ⟨before, after, htrace, hafter⟩
    cases before with
    | nil =>
      obtain ⟨rfl, rfl⟩ := List.cons.inj htrace
      exact .inr ⟨rfl, hafter⟩
    | cons d before =>
      obtain ⟨-, rfl⟩ := List.cons.inj htrace
      exact .inl ⟨before, after, rfl, hafter⟩
  · rintro (⟨before, after, rfl, hafter⟩ | ⟨rfl, hafter⟩)
    · exact ⟨c :: before, after, rfl, hafter⟩
    · exact ⟨[], trace, rfl, hafter⟩

/-- What is found after some changes was set last by one of them, or was there before and they
all let it be. -/
theorem get?_foldl_change_iff (s : Storage) (trace : List Change) :
    (trace.foldl change s).get? event name = some value ↔
      LastSet trace event name value ∨
        (∀ c ∈ trace, ¬ c.Settles event name) ∧ s.get? event name = some value := by
  induction trace generalizing s with
  | nil => simp [LastSet]
  | cons c trace ih =>
    rw [List.foldl_cons, ih, get?_change_iff, lastSet_cons_iff, List.forall_mem_cons]
    constructor
    · rintro (hlast | ⟨hrest, hc | ⟨hc, hs⟩⟩)
      · exact .inl (.inl hlast)
      · exact .inl (.inr ⟨hc, hrest⟩)
      · exact .inr ⟨⟨hc, hrest⟩, hs⟩
    · rintro ((hlast | ⟨hc, hrest⟩) | ⟨⟨hc, hrest⟩, hs⟩)
      · exact .inl hlast
      · exact .inr ⟨hrest, .inl hc⟩
      · exact .inr ⟨hrest, .inr ⟨hc, hs⟩⟩

theorem follows_of_changes (trace : List Change) : (trace.foldl change empty).Follows trace := by
  have hget (event name : String) (value : Tree) :
      (trace.foldl change empty).get? event name = some value ↔
        LastSet trace event name value := by
    rw [get?_foldl_change_iff]
    exact or_iff_left fun h => nomatch h.2
  refine ⟨hget, fun event => Keyed.nodup_keys (sorted_variablesOf _ event),
    fun _ _ => mem_keys_iff, Keyed.nodup_keys (Storage.sorted _), fun event => ?_, isEmpty_iff⟩
  rw [mem_eventIds_iff, ne_eq, ne_eq, keys_eq_nil_iff]

/--
After any actions, every answer of a storage is the one that the trace of its changes gives; and
whatever is done next, no answer about another event than its own is changed.
-/
theorem follows_trace (actions : List Action) :
    let s := Session.start.play actions
    s.storage.Follows (changes [] actions) ∧
    ∀ (a : Action) (event : String), a.event? s.scopes ≠ some event →
      AnswersAlike event s.storage (s.act a).storage := by
  intro s
  refine ⟨?_, fun a event ha => .of_variablesOf ?_⟩
  · have hplay : s.storage = (changes [] actions).foldl change empty :=
      Session.start.storage_play actions
    exact hplay ▸ follows_of_changes (changes [] actions)
  · cases a with
    | set event' name value =>
      exact variablesOf_set_of_ne _ (fun h => ha (congrArg some h.symm)) name value
    | flush event' => exact variablesOf_flush_of_ne _ fun h => ha (congrArg some h.symm)
    | enter event' => rfl
    | leave i =>
      simp only [Action.event?] at ha
      simp only [Session.act]
      cases hi : s.scopes[i]? with
      | none => rfl
      | some event' =>
        rw [hi] at ha
        exact variablesOf_flush_of_ne _ fun h => ha (congrArg some h.symm)

end EventPipeline.Storage
