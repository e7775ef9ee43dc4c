import EventPipeline.Adapter.Basic

/-!
Worker pools. A reader puts events into a queue of bounded length, and each worker takes them out
one by one, transforms them and hands them to the sink. Reader and workers are scheduled in any
order; `play` follows a schedule turn by turn. The order in which events are sent depends on the
schedule.
-/

namespace EventPipeline.Adapter

/-- How far the reader has come. -/
inductive Reader where
  | reading (lines : List ByteArray)
  /-- Has a line in hand, which has been counted. -/
  | holding (line : String) (lines : List ByteArray)
  | finished
  /-- Has come to a line that is no text. -/
  | failed

inductive Worker where
  | idle
  | busy (work : Work (Except Error Transformed))
  /-- Is done with its event, but has not counted it yet. -/
  | counting (v : Verdict)

structure Pool where
  reader : Reader
  queue : List Event := []
  workers : List Worker
  stats : Stats := {}
  /-- The events that the sink took, last one first. -/
  sent : List Event := []
  shared : Shared := .fresh

/-- Whose turn it is. -/
inductive Turn where
  | reader
  | worker (i : Nat)

namespace Pool

/-- A turn of the reader; it waits as long as the queue is full. -/
def readerTurn (a : Adapter) (p : Pool) : Pool :=
  match p.reader with
  | .reading [] => { p with reader := .finished }
  | .reading (line :: lines) =>
    match String.fromUTF8? line with
    | none => { p with reader := .failed }
    | some s =>
      if Text.allBlank s then { p with reader := .reading lines }
      else { p with reader := .holding s lines, stats := p.stats.receive }
  | .holding line lines =>
    match Event.read line with
    | .error _ => { p with reader := .reading lines, stats := p.stats.count .rejected }
    | .ok event =>
      if p.queue.length < a.queueSize then
        { p with reader := .reading lines, queue := p.queue ++ [event] }
      else p
  | .finished | .failed => p

/-- A turn of the worker with number `i`; without an event it waits. -/
def workerTurn (a : Adapter) (accepts : Event → Bool) (i : Nat) (p : Pool) : Pool :=
  match p.workers[i]? with
  | none => p
  | some .idle =>
    match p.queue with
    | [] => p
    | event :: queue =>
      { p with queue, workers := p.workers.set i (.busy (a.handler.transform event)) }
  | some (.busy (.done result)) =>
    { p with workers := p.workers.set i (.counting (verdict accepts result))
             sent := taken accepts result ++ p.sent }
  | some (.busy work) =>
    let (work, shared) := work.step p.shared
    { p with workers := p.workers.set i (.busy work), shared }
  | some (.counting v) => { p with workers := p.workers.set i .idle, stats := p.stats.count v }

def turn (a : Adapter) (accepts : Event → Bool) (p : Pool) : Turn → Pool
  | .reader => p.readerTurn a
  | .worker i => p.workerTurn a accepts i

def play (a : Adapter) (accepts : Event → Bool) (p : Pool) (schedule : List Turn) : Pool :=
  schedule.foldl (turn a accepts) p

/-- What a pool that is done has brought. -/
def outcome (p : Pool) : Run :=
  { stats := match p.reader with
      | .failed => .error (.io .notUtf8)
      | _ => .ok p.stats
    sent := p.sent.reverse
    shared := p.shared }

end Pool

end EventPipeline.Adapter
