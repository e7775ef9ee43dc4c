import EventPipeline.Pipeline
import EventPipeline.Proofs.Rule.WellFormed
import EventPipeline.Proofs.Rule.Writing

/-!
What a pipeline is built of. Each path entry of the configuration becomes a rule, in its order, when
all entries are well formed; otherwise the first one that is not says why no pipeline is built
(`Pipeline.ofTransforms_ruling`). A rule that writes can be configured only with a path that may
be written to (`Rule.excess?_of_configure`).
-/

namespace EventPipeline

/-- A rule that writes could be configured only with a path that may be written to. -/
theorem Rule.excess?_of_configure {op : Operation} {spec : PathSpec} {r : Rule}
    (h : configure op spec = .ok r) {path : Path} (hpath : r.target? = some path) :
    path.excess? = none := by
  obtain ⟨hspec, rfl⟩ := (configure_ruling op spec).eq_ok_iff.mp h
  cases op with
  | add =>
    obtain rfl : Path.parse spec.key spec.separator = path := Option.some.inj hpath
    exact Path.writable_iff.mp hspec
  | shift =>
    obtain rfl : Path.parse (Text.afterColon spec.key) spec.separator = path :=
      Option.some.inj hpath
    exact Path.writable_iff.mp hspec.2
  | delete | store | parse => cases hpath

namespace Pipeline

/-- A path entry of a configuration, and the number of its transformation. -/
structure Entry where
  index : Nat
  operation : Operation
  spec : PathSpec
deriving DecidableEq, Repr

namespace Entry

variable {x : Entry} {e : Error}

def WellFormed (x : Entry) : Prop := x.spec.WellFormed x.operation

instance (x : Entry) : Decidable x.WellFormed := inferInstanceAs (Decidable (x.spec.WellFormed _))

/-- Why an entry is refused; its transformation is named in a note. -/
def Refused (x : Entry) (e : Error) : Prop :=
  ∃ cause, x.spec.Refused x.operation cause ∧ e = .noted (entryNote x.index x.operation) cause

/-- The rule of a well-formed entry. -/
def rule (x : Entry) : Rule := Rule.ofEntry x.operation x.spec

def configure (x : Entry) : Except Error Rule :=
  (Rule.configure x.operation x.spec).mapError (.noted (entryNote x.index x.operation))

theorem ruling (x : Entry) : Ruling x.configure x.WellFormed x.rule x.Refused :=
  (Rule.configure_ruling x.operation x.spec).mapError _

@[simp] theorem phase_rule (x : Entry) : x.rule.phase = x.operation.phase := by
  obtain ⟨index, op, spec⟩ := x
  cases op <;> rfl

theorem Refused.isConfiguration (h : x.Refused e) : e.isConfiguration = true := by
  obtain ⟨cause, hcause, rfl⟩ := h
  exact hcause.isConfiguration

end Entry

/-- The path entries of transformations that are numbered from `index` on. -/
def entriesFrom (index : Nat) (ts : List Transform) : List Entry :=
  (ts.zipIdx index).flatMap fun (t, i) => t.paths.map fun spec => ⟨i, t.operation, spec⟩

/-- The path entries of a configuration, in their order. -/
def entries (ts : List Transform) : List Entry := entriesFrom 0 ts

variable {ts : List Transform} {e : Error}

theorem entriesFrom_cons (index : Nat) (t : Transform) (ts : List Transform) :
    entriesFrom index (t :: ts) =
      t.paths.map (Entry.mk index t.operation) ++ entriesFrom (index + 1) ts := by
  rw [entriesFrom, List.zipIdx_cons, List.flatMap_cons]
  rfl

theorem length_entriesFrom (index : Nat) (ts : List Transform) :
    (entriesFrom index ts).length = (ts.map fun t => t.paths.length).sum := by
  induction ts generalizing index with
  | nil => rfl
  | cons t ts ih =>
    rw [entriesFrom_cons, List.length_append, List.length_map, ih, List.map_cons, List.sum_cons]

theorem exists_of_mem_entriesFrom {index : Nat} {x : Entry} (hx : x ∈ entriesFrom index ts) :
    ∃ t ∈ ts, x.operation = t.operation ∧ x.spec ∈ t.paths := by
  obtain ⟨⟨t, i⟩, ht, hx⟩ := List.mem_flatMap.mp hx
  obtain ⟨spec, hspec, rfl⟩ := List.mem_map.mp hx
  exact ⟨t, List.fst_mem_of_mem_zipIdx ht, rfl, hspec⟩

theorem rulesFrom_eq (index : Nat) (ts : List Transform) :
    rulesFrom index ts = (entriesFrom index ts).mapM Entry.configure := by
  induction ts generalizing index with
  | nil => rfl
  | cons t ts ih =>
    rw [entriesFrom_cons, List.mapM_append, List.mapM_map, rulesFrom, ih]
    rfl

/-- The first entry that is not well formed is refused for this reason. -/
def Fault (ts : List Transform) (e : Error) : Prop :=
  ∃ before bad after, entries ts = before ++ bad :: after ∧ (∀ x ∈ before, x.WellFormed) ∧
    ¬ bad.WellFormed ∧ bad.Refused e

theorem Fault.isConfiguration (h : Fault ts e) : e.isConfiguration = true := by
  obtain ⟨_, bad, _, -, -, -, hbad⟩ := h
  exact hbad.isConfiguration

/-- A pipeline is built of the rules of all entries when each is well formed. -/
theorem ofTransforms_ruling (ts : List Transform) :
    Ruling (ofTransforms ts) (∀ x ∈ entries ts, x.WellFormed) ⟨(entries ts).map Entry.rule⟩
      (Fault ts) := by
  rw [ofTransforms, rulesFrom_eq]
  exact (Ruling.mapM Entry.ruling (entries ts)).map Pipeline.mk

/-- Each rule of a pipeline was configured with an entry of one of its transformations. -/
theorem exists_configure_of_mem {ts : List Transform} {p : Pipeline} (hp : ofTransforms ts = .ok p)
    {r : Rule} (hr : r ∈ p.rules) :
    ∃ t ∈ ts, ∃ spec ∈ t.paths, Rule.configure t.operation spec = .ok r := by
  obtain ⟨hentries, rfl⟩ := (ofTransforms_ruling ts).eq_ok_iff.mp hp
  obtain ⟨x, hx, rfl⟩ := List.mem_map.mp hr
  obtain ⟨t, ht, hop, hspec⟩ := exists_of_mem_entriesFrom hx
  exact ⟨t, ht, x.spec, hspec, hop ▸ Rule.configure_of_wellFormed (hentries x hx)⟩

end Pipeline

end EventPipeline
