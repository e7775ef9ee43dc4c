import EventPipeline.Adapter.Basic
import EventPipeline.Transform.Json

/-!
Configurations of adapters: the transformations of contexts and payloads, and the size of the pool
that applies them.
-/

namespace EventPipeline

/-- The transformations of contexts, and those of payloads. -/
structure Transformations where
  context : List Transform := []
  data : List Transform := []
deriving DecidableEq, Repr, Inhabited

structure Config where
  workers : Nat
  queueSize : Nat
  transformations : Transformations
deriving DecidableEq, Repr

namespace Transformations

/-- The setting of the environment that holds the transformations of contexts. -/
def contextSetting : String := "TRANSFORMATION_CONTEXT"

/-- The setting of the environment that holds the transformations of payloads. -/
def dataSetting : String := "TRANSFORMATION_DATA"

/-- Reads the list of transformations in a setting; a blank setting is the empty list. -/
def readSetting (setting json : String) : Except Error (List Transform) :=
  if Text.allBlank json then .ok []
  else (Transform.readList json).mapError fun problem => .config (.badList setting problem)

/-- Reads both lists from JSON texts. -/
def ofJson (context data : String) : Except Error Transformations := do
  let context ← readSetting contextSetting context
  let data ← readSetting dataSetting data
  return { context, data }

def isEmpty (t : Transformations) : Bool := t.context.isEmpty && t.data.isEmpty

/-- The handler that applies the transformations. -/
def handler (t : Transformations) : Except Error Handler := Handler.ofTransforms t.context t.data

end Transformations

namespace Config

/-- The number of workers where none is configured: one for each processor, if their number is
known. -/
def defaultWorkers (processors : Option Nat := none) : Nat := processors.getD 1

/-- The room in the queue where none is configured. -/
def defaultQueueSize : Nat := 256

/-- The configuration where nothing is configured. -/
def standard (processors : Option Nat) : Config := ⟨defaultWorkers processors, defaultQueueSize, {}⟩

/-- Fails unless there is at least one worker, and room for one event in the queue. -/
def validated (c : Config) : Except Error Config :=
  if c.workers = 0 then .error (.config .noWorkers)
  else if c.queueSize = 0 then .error (.config .noQueue)
  else .ok c

/-- The adapter of a configuration. -/
def adapter (c : Config) : Except Error Adapter := do
  let handler ← c.transformations.handler
  return Adapter.configured handler c.workers c.queueSize

end Config

end EventPipeline
