import EventPipeline.Storage

/-!
Work on shared variables, as a tree of requests. Events that are worked on at the same time share
the counter that tells them apart and the storage of their variables; each *request* to these is
answered in one step, and the work of other events may come between two requests. `run` answers
the requests of a single event, with nothing in between.
-/

namespace EventPipeline

/-- What events share. -/
structure Shared where
  /-- The next number to be handed out; after the last one the count starts again. -/
  nextTicket : UInt64
  storage : Storage
deriving DecidableEq

def Shared.fresh : Shared := ⟨0, .empty⟩

inductive Request where
  /-- Asks for a number that no other request has been given. -/
  | ticket
  | get (event name : String)
  | keys (event : String)
  | set (event name : String) (value : Tree)
  | flush (event : String)

/-- What a request is answered with. -/
abbrev Request.Answer : Request → Type
  | .ticket => UInt64
  | .get .. => Option Tree
  | .keys _ => List String
  | .set .. => Unit
  | .flush _ => Unit

/-- Answers a request. -/
def Shared.answer (s : Shared) : (request : Request) → request.Answer × Shared
  | .ticket => (s.nextTicket, { s with nextTicket := s.nextTicket + 1 })
  | .get event name => (s.storage.get? event name, s)
  | .keys event => (s.storage.keys event, s)
  | .set event name value => ((), { s with storage := s.storage.set event name value })
  | .flush event => ((), { s with storage := s.storage.flush event })

/-- Work that ends with a result, or asks and goes on with the answer. -/
inductive Work (α : Type) where
  | done (result : α)
  | ask (request : Request) (resume : request.Answer → Work α)

namespace Work

variable {α β γ : Type}

/-- Goes on with the result. -/
def bind : Work α → (α → Work β) → Work β
  | .done a, f => f a
  | .ask request resume, f => .ask request fun answer => (resume answer).bind f

/-- Forgets the variables of an event once the work is done. -/
def inScope (event : String) (work : Work α) : Work α :=
  work.bind fun a => .ask (.flush event) fun _ => .done a

/-- Work after its next request; work that is done stays as it is. -/
def step : Work α → Shared → Work α × Shared
  | .done a, s => (.done a, s)
  | .ask request resume, s =>
    let (answer, s) := s.answer request
    (resume answer, s)

/-- The result of work that nothing comes in between, and what it leaves behind. -/
def run : Work α → Shared → α × Shared
  | .done a, s => (a, s)
  | .ask request resume, s =>
    let (answer, s) := s.answer request
    (resume answer).run s

@[simp] theorem run_step (work : Work α) (s : Shared) :
    (work.step s).1.run (work.step s).2 = work.run s := by
  cases work <;> rfl

@[simp] theorem run_bind (work : Work α) (f : α → Work β) (s : Shared) :
    (work.bind f).run s = (f (work.run s).1).run (work.run s).2 := by
  induction work generalizing s with
  | done a => rfl
  | ask request resume ih => exact ih _ _

theorem bind_assoc (work : Work α) (f : α → Work β) (g : β → Work γ) :
    (work.bind f).bind g = work.bind fun a => (f a).bind g := by
  induction work with
  | done a => rfl
  | ask request resume ih => exact congrArg _ (funext fun answer => ih answer)

end Work

end EventPipeline
