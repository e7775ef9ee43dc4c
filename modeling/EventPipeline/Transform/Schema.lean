import EventPipeline.Record
import EventPipeline.Transform.Basic

/-!
Reading transformations from any data format. All fields but the operation may be missing.
-/

namespace EventPipeline

open Untyped

variable {V : Type} [Untyped V]

def Operation.ofUntyped (v : V) : Except Problem Operation := do
  let name ← asText v
  match ofName? name with
  | some op => return op
  | none => throw (.unknownOperation name)

namespace PathSpec

def schema : Schema V PathSpec where
  name := "PathSpec"
  fields := [
    ⟨"key", false, fun v spec => return { spec with key := ← asText v }⟩,
    ⟨"value", false, fun v spec => return { spec with value := ← asText v }⟩,
    ⟨"separator", false, fun v spec => do
      let separator ← asOptional asText v
      return { spec with separator := Path.orDefault (separator.getD "") }⟩]
  other := skipMember

def ofUntyped (v : V) : Except Problem PathSpec := asRecord schema {} v

end PathSpec

namespace Transform

def schema : Schema V Transform where
  name := "Transform"
  fields := [
    ⟨"operation", true, fun v t => return { t with operation := ← Operation.ofUntyped v }⟩,
    ⟨"paths", false, fun v t => return { t with paths := ← asList PathSpec.ofUntyped v }⟩]
  other := skipMember

def ofUntyped (v : V) : Except Problem Transform := asRecord schema default v

end Transform

end EventPipeline
