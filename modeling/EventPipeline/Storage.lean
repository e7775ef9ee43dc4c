import EventPipeline.Tree.Basic

/-!
Variables, kept apart by the event they belong to. An event is in the storage as long as it has a
variable; `flush` forgets it. The order in which variables were set leaves no trace.
-/

namespace EventPipeline

/-- For each event its variables. -/
structure Storage where
  events : Keyed (Keyed Tree)
  sorted : Keyed.Sorted events
  sorted_variables : ∀ e ∈ events, Keyed.Sorted e.2
  /-- No event is kept without a variable. -/
  ne_nil : ∀ e ∈ events, e.2 ≠ []
deriving DecidableEq

namespace Storage

def empty : Storage where
  events := []
  sorted := .nil
  sorted_variables := by simp
  ne_nil := by simp

instance : Inhabited Storage := ⟨empty⟩

/-- The variables of an event. -/
def variablesOf (s : Storage) (event : String) : Keyed Tree := (Keyed.get? event s.events).getD []

theorem sorted_variablesOf (s : Storage) (event : String) : Keyed.Sorted (s.variablesOf event) := by
  unfold variablesOf
  cases h : Keyed.get? event s.events with
  | none => exact .nil
  | some vars => exact s.sorted_variables _ (Keyed.mem_of_get? h)

/-- Keeps a value as a variable, in place of the one it had. -/
def set (s : Storage) (event name : String) (value : Tree) : Storage where
  events := Keyed.insert event (Keyed.insert name value (s.variablesOf event)) s.events
  sorted := Keyed.sorted_insert s.sorted _ _
  sorted_variables e he := by
    rcases Keyed.mem_insert he with rfl | he
    · exact Keyed.sorted_insert (s.sorted_variablesOf event) _ _
    · exact s.sorted_variables e he
  ne_nil e he := by
    rcases Keyed.mem_insert he with rfl | he
    · exact Keyed.insert_ne_nil _ _ _
    · exact s.ne_nil e he

def get? (s : Storage) (event name : String) : Option Tree := Keyed.get? name (s.variablesOf event)

/-- The names of an event's variables. -/
def keys (s : Storage) (event : String) : List String := Keyed.keys (s.variablesOf event)

/-- The events that have variables. -/
def eventIds (s : Storage) : List String := Keyed.keys s.events

/-- Forgets the variables of an event. -/
def flush (s : Storage) (event : String) : Storage where
  events := Keyed.erase event s.events
  sorted := Keyed.sorted_erase s.sorted event
  sorted_variables e he := s.sorted_variables e ((Keyed.sublist_erase _ _).subset he)
  ne_nil e he := s.ne_nil e ((Keyed.sublist_erase _ _).subset he)

def isEmpty (s : Storage) : Bool := s.events.isEmpty

/-- Runs something that belongs to an event, and forgets the event's variables after it. -/
def inScope {α : Type} (event : String) (body : Storage → α × Storage) (s : Storage) :
    α × Storage :=
  let (result, s) := body s
  (result, s.flush event)

@[simp] theorem get?_set_self (s : Storage) (event name : String) (value : Tree) :
    (s.set event name value).get? event name = some value := by
  simp [get?, set, variablesOf]

theorem get?_set_of_ne (s : Storage) (event : String) {name other : String} (h : other ≠ name)
    (value : Tree) : (s.set event name value).get? event other = s.get? event other := by
  simp only [get?, variablesOf, set, Keyed.get?_insert_self, Option.getD_some,
    Keyed.get?_insert_of_ne h]

theorem variablesOf_set_self (s : Storage) (event name : String) (value : Tree) :
    (s.set event name value).variablesOf event =
      Keyed.insert name value (s.variablesOf event) := by
  simp only [variablesOf, set, Keyed.get?_insert_self, Option.getD_some]

theorem variablesOf_set_of_ne (s : Storage) {event other : String} (h : other ≠ event)
    (name : String) (value : Tree) :
    (s.set event name value).variablesOf other = s.variablesOf other := by
  simp only [variablesOf, set, Keyed.get?_insert_of_ne h]

@[simp] theorem variablesOf_flush_self (s : Storage) (event : String) :
    (s.flush event).variablesOf event = [] := by
  simp only [variablesOf, flush, Keyed.get?_erase_self s.sorted, Option.getD_none]

theorem variablesOf_flush_of_ne (s : Storage) {event other : String} (h : other ≠ event) :
    (s.flush event).variablesOf other = s.variablesOf other := by
  simp only [variablesOf, flush, Keyed.get?_erase_of_ne h]

end Storage

end EventPipeline
