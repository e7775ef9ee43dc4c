import EventPipeline.Handler
import EventPipeline.Text.Blank
import EventPipeline.Text.Lines

/-!
Adapters: they read events line by line, have each transformed, and hand the results to a sink.
Lines that are no events, rejected events, and events that the sink refuses are dropped and
counted; only a line that is no text ends the run early.
-/

namespace EventPipeline

structure Adapter where
  handler : Handler
  workers : Nat := 1
  queueSize : Nat := 256
deriving DecidableEq, Repr

/-- What becomes of a line that is not blank. -/
inductive Verdict where
  | transformed
  /-- Sent on with errors of single rules. -/
  | flawed
  | rejected
deriving DecidableEq, Repr

/-- The verdict on an event; one that the sink does not accept is dropped too. -/
def verdict (accepts : Event → Bool) : Except Error Transformed → Verdict
  | .error _ => .rejected
  | .ok t =>
    if !accepts t.event then .rejected else if t.isPartial then .flawed else .transformed

/-- What the sink takes of a result. -/
def taken (accepts : Event → Bool) : Except Error Transformed → List Event
  | .error _ => []
  | .ok t => if accepts t.event then [t.event] else []

/-- What became of the lines, in counters of 64 bits that start again after the last number. -/
structure Stats where
  /-- Lines that are not blank. -/
  received : UInt64 := 0
  /-- Events sent on without errors. -/
  transformed : UInt64 := 0
  /-- Events sent on with errors of single rules. -/
  flawed : UInt64 := 0
  /-- Lines and events that were dropped. -/
  rejected : UInt64 := 0
deriving DecidableEq, Repr

/-- A counter is shown as a number. -/
instance instCoeOutUInt64Nat : CoeOut UInt64 Nat := ⟨UInt64.toNat⟩

namespace Stats

def forwarded (s : Stats) : UInt64 := s.transformed + s.flawed

def receive (s : Stats) : Stats := { s with received := s.received + 1 }

def count (s : Stats) : Verdict → Stats
  | .transformed => { s with transformed := s.transformed + 1 }
  | .flawed => { s with flawed := s.flawed + 1 }
  | .rejected => { s with rejected := s.rejected + 1 }

def display (s : Stats) : String :=
  let shown (n : Nat) : String := toString n
  "received=" ++ shown s.received ++ " transformed=" ++ shown s.transformed ++ " partial=" ++
    shown s.flawed ++ " rejected=" ++ shown s.rejected

end Stats

namespace Adapter

/-- There is always at least one worker, and room for one event in the queue. -/
def configured (handler : Handler) (workers queueSize : Nat) : Adapter :=
  { handler, workers := max workers 1, queueSize := max queueSize 1 }

/-- The texts of lines up to the first one that is none, and whether there is one. -/
def readable : List ByteArray → List String × Bool
  | [] => ([], false)
  | line :: lines =>
    match String.fromUTF8? line with
    | none => ([], true)
    | some s =>
      let (texts, failed) := readable lines
      (s :: texts, failed)

/-- What a run has brought so far. -/
structure Progress where
  stats : Stats := {}
  /-- The events that the sink took, last one first. -/
  sent : List Event := []
  shared : Shared := .fresh

/-- Handles one line. -/
def handleLine (handler : Handler) (accepts : Event → Bool) (p : Progress) (line : String) :
    Progress :=
  if Text.allBlank line then p
  else
    match Event.read line with
    | .error _ => { p with stats := p.stats.receive.count .rejected }
    | .ok event =>
      let (result, shared) := (handler.transform event).run p.shared
      { stats := p.stats.receive.count (verdict accepts result)
        sent := taken accepts result ++ p.sent
        shared }

/-- What a run brings: the counts, unless a line could not be read, and the events sent. -/
structure Run where
  stats : Except Error Stats
  sent : List Event
  shared : Shared

/-- Handles the lines of the input one by one. -/
def run (a : Adapter) (accepts : Event → Bool) (input : ByteArray) : Run :=
  let (lines, failed) := readable (Text.lines input)
  let p := lines.foldl (handleLine a.handler accepts) {}
  { stats := if failed then .error (.io .notUtf8) else .ok p.stats
    sent := p.sent.reverse
    shared := p.shared }

/-- What the sink writes for an event: its text and a line feed. -/
def line (e : Event) : String := e.text ++ "\n"

end Adapter

end EventPipeline
