import EventPipeline.Rule.Basic
import EventPipeline.Transform.Basic

/-!
Pipelines: rules that are applied one after the other. A run goes over the rules of one phase; a
rule that fails is passed over, and its error is kept. Over the bytes of a tree a run decodes once
and encodes once, and a phase without rules does not look at the bytes at all.
-/

namespace EventPipeline

structure Pipeline where
  rules : List Rule
deriving DecidableEq, Repr

/-- Bytes after a run, and what went wrong on the way. -/
structure Output where
  data : ByteArray
  error : Option Error

namespace Pipeline

/-- The note on an error in the transformation with the given number. -/
def entryNote (index : Nat) (op : Operation) : String :=
  "transformation #" ++ toString index ++ " (" ++ op.name ++ ")"

/-- The rules of the transformation with the given number. -/
def entryRules (index : Nat) (t : Transform) : Except Error (List Rule) :=
  t.paths.mapM fun spec =>
    (Rule.configure t.operation spec).mapError (.noted (entryNote index t.operation))

/-- The rules of transformations that are numbered from `index` on. -/
def rulesFrom (index : Nat) : List Transform → Except Error (List Rule)
  | [] => .ok []
  | t :: ts => do
    let rules ← entryRules index t
    return rules ++ (← rulesFrom (index + 1) ts)

/-- One rule for each configured path, in the order of the configuration. -/
def ofTransforms (ts : List Transform) : Except Error Pipeline :=
  Pipeline.mk <$> rulesFrom 0 ts

def length (p : Pipeline) : Nat := p.rules.length

def isEmpty (p : Pipeline) : Bool := p.rules.isEmpty

/-- The rules of a phase, in their order. -/
def phaseRules (p : Pipeline) (phase : Phase) : List Rule :=
  p.rules.filter fun r => r.phase == phase

def phaseLength (p : Pipeline) (phase : Phase) : Nat := (p.phaseRules phase).length

theorem mem_phaseRules {p : Pipeline} {phase : Phase} {r : Rule} :
    r ∈ p.phaseRules phase ↔ r ∈ p.rules ∧ r.phase = phase := by
  rw [phaseRules, List.mem_filter, beq_iff_eq]

/-- Applies rules to a tree, passing over those that fail. -/
def applyRules (event : String) (t : Tree) : List Rule → Work (Tree × List Error)
  | [] => .done (t, [])
  | r :: rs =>
    (r.transform event t).bind fun
      | .ok next => applyRules event next rs
      | .error e => (applyRules event t rs).bind fun (t, errors) => .done (t, e :: errors)

/-- Applies the rules of a phase to a tree. -/
def applyTree (p : Pipeline) (event : String) (t : Tree) (phase : Phase) :
    Work (Tree × List Error) :=
  applyRules event t (p.phaseRules phase)

/-- Applies the rules of a phase to the bytes of a tree. -/
def apply (p : Pipeline) (event : String) (data : ByteArray) (phase : Phase) : Work Output :=
  if (p.phaseRules phase).isEmpty then .done ⟨data, none⟩
  else
    match Json.decode data with
    | .error problem => .done ⟨data, some (.decode problem)⟩
    | .ok t =>
      (p.applyTree event t phase).bind fun (t, errors) =>
        .done ⟨Json.encode t, Error.collect errors⟩

/-- Without rules, a run leaves its bytes as they are. -/
theorem apply_of_isEmpty {p : Pipeline} (hp : p.isEmpty = true) (event : String)
    (data : ByteArray) (phase : Phase) : p.apply event data phase = .done ⟨data, none⟩ := by
  rw [apply, phaseRules, List.isEmpty_iff.mp hp]
  rfl

/-- Applies the rules of both phases, one phase after the other. -/
def applyAll (p : Pipeline) (event : String) (data : ByteArray) : Work Output :=
  (p.apply event data .init).bind fun first =>
    (p.apply event first.data .main).bind fun second =>
      .done ⟨second.data, Error.collect (first.error.toList ++ second.error.toList)⟩

end Pipeline

end EventPipeline
