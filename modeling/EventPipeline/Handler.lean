import EventPipeline.Event.Json
import EventPipeline.Pipeline

/-!
Handlers: a pipeline for contexts and one for payloads, which share the variables of each event.
Errors of single rules are handed on with the event; an event is rejected only when its payload is
no JSON, or when its transformed context is not that of an event.
-/

namespace EventPipeline

structure Handler where
  context : Pipeline
  data : Pipeline
deriving DecidableEq, Repr

/-- A transformed event, and what went wrong on the way. -/
structure Transformed where
  event : Event
  error : Option Error

def Transformed.isPartial (t : Transformed) : Bool := t.error.isSome

namespace Handler

def ofTransforms (context data : List Transform) : Except Error Handler := do
  let context ← (Pipeline.ofTransforms context).mapError (.noted "context pipeline")
  let data ← (Pipeline.ofTransforms data).mapError (.noted "data pipeline")
  return { context, data }

/-- What an event is called in the storage; the ticket tells events of one id apart. -/
def storageKey (id : String) (ticket : UInt64) : String := id ++ "#" ++ toString ticket.toNat

/-- An event without payload stays without one unless a rule gave it one. -/
def keepAbsent (hadData : Bool) (t : Tree) : Option Tree :=
  if !hadData && t.isNull then none else some t

/-- The event made of transformed bytes. -/
def rebuild (hadData : Bool) (context data : ByteArray) (errors : List Error) :
    Except Error Transformed := do
  let context ← (Json.decodeTyped Context.ofNode context).mapError
    fun problem => .invalidEvent (.badContext problem)
  let data ← (Json.decode data).mapError .decode
  let event ← Event.ofParts context (keepAbsent hadData data)
  return { event, error := Error.collect errors }

/-- Both phases over context and payload of an event, under its name in the storage. -/
def runPhases (h : Handler) (key : String) (e : Event) : Work (Except Error Transformed) :=
  (h.context.apply key (Json.encode e.toContext.tree) .init).bind fun context₁ =>
    (h.data.apply key (Json.encode e.payload) .init).bind fun data₁ =>
      (h.context.apply key context₁.data .main).bind fun context₂ =>
        (h.data.apply key data₁.data .main).bind fun data₂ =>
          .done (rebuild e.data.isSome context₂.data data₂.data
            (context₁.error.toList ++ data₁.error.toList ++ context₂.error.toList ++
              data₂.error.toList))

/-- Transforms an event; whatever happens, its variables are forgotten in the end. -/
def transform (h : Handler) (e : Event) : Work (Except Error Transformed) :=
  if e.hasJsonData then
    .ask .ticket fun ticket =>
      let key := storageKey e.id ticket
      Work.inScope key (h.runPhases key e)
  else .done (.error (.unsupportedContentType (e.datacontenttype.getD "")))

/-- What an event comes to is what its phases come to, under the name it is given. -/
theorem run_transform_of_json (h : Handler) {e : Event} (he : e.hasJsonData = true) (s : Shared) :
    ((h.transform e).run s).1 = ((h.runPhases (storageKey e.id s.nextTicket) e).run
      { s with nextTicket := s.nextTicket + 1 }).1 := by
  rw [transform, if_pos he]
  change ((Work.inScope _ (h.runPhases _ e)).run _).1 = _
  rw [Work.inScope, Work.run_bind]
  rfl

theorem hasJsonData_of_ok {h : Handler} {e : Event} {s : Shared} {out : Transformed}
    (hout : ((h.transform e).run s).1 = .ok out) : e.hasJsonData = true := by
  rw [transform] at hout
  split at hout
  · assumption
  · cases hout

end Handler

end EventPipeline
