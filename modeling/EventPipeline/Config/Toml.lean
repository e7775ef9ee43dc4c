import EventPipeline.Config.Basic
import EventPipeline.Toml.Typed
import EventPipeline.Toml.Writer
import EventPipeline.Transform.Schema

/-!
Configurations in TOML documents. Every member may be missing; counts are written only up to the
largest number that the format has.
-/

namespace EventPipeline

open Toml

def PathSpec.toml (spec : PathSpec) : Value :=
  .table [("key", .text spec.key), ("value", .text spec.value), ("separator", .text spec.separator)]

def Transform.toml (t : Transform) : Value :=
  .table [("operation", .text t.operation.name), ("paths", .array (t.paths.map PathSpec.toml))]

namespace Transformations

def schema : Schema Value Transformations where
  name := "TransformationConfig"
  fields := [
    ⟨"context", false, fun v t =>
      return { t with context := ← v.asList Transform.ofUntyped }⟩,
    ⟨"data", false, fun v t => return { t with data := ← v.asList Transform.ofUntyped }⟩]
  other := Untyped.skipMember

def toml (t : Transformations) : Value :=
  .table [("context", .array (t.context.map Transform.toml)),
    ("data", .array (t.data.map Transform.toml))]

end Transformations

namespace Config

def schema : Schema Value Config where
  name := "AdapterConfig"
  fields := [
    ⟨"workers", false, fun v c => return { c with workers := ← v.asCount }⟩,
    ⟨"queue_size", false, fun v c => return { c with queueSize := ← v.asCount }⟩,
    ⟨"transformation", false, fun v c =>
      return { c with transformations := ← v.asRecord Transformations.schema {} }⟩]
  other := Untyped.skipMember

/-- Reads a configuration. -/
def ofToml (s : String) (processors : Option Nat) : Except Problem Config :=
  match Toml.read? s with
  | some v => v.asRecord schema (standard processors)
  | none => .error .malformed

/-- The largest count that can be written: that of 63 bits. -/
def largestCount : Nat := 0x7FFF_FFFF_FFFF_FFFF

/-- The text of a configuration. -/
def toml (c : Config) : Except Error String :=
  if largestCount < c.workers || largestCount < c.queueSize then
    .error (.config .unwritableCount)
  else
    .ok (documentText [("workers", .integer c.workers), ("queue_size", .integer c.queueSize),
      ("transformation", c.transformations.toml)])

end Config

end EventPipeline
