/-!
Paths: the way from the root of a tree to one of its nodes.
-/

namespace EventPipeline

/-- One step down a tree: to the member of an object, or to the element of an array. -/
inductive Path.Step where
  | key (name : String)
  | index (i : Nat)
deriving DecidableEq, Repr

/-- The steps from the root of a tree to a node. -/
structure Path where
  steps : List Path.Step
deriving DecidableEq, Repr

namespace Path

/-- The path that leads nowhere but to the root. -/
def root : Path := ⟨[]⟩

instance : Inhabited Path := ⟨root⟩

def isRoot (p : Path) : Bool := p.steps.isEmpty

def length (p : Path) : Nat := p.steps.length

/-- The array index of a step. -/
def Step.index? : Step → Option Nat
  | .index i => some i
  | .key _ => none

/-- The largest array index on the way. -/
def maxIndex? (p : Path) : Option Nat := (p.steps.filterMap Step.index?).max?

/-- The largest array index that may be written to. -/
def largestIndex : Nat := 65535

/-- The largest array index on the way, when it is too large to be written to. -/
def excess? (p : Path) : Option Nat := p.maxIndex?.filter (largestIndex < ·)

theorem mem_filterMap_index? {steps : List Step} {i : Nat} :
    i ∈ steps.filterMap Step.index? ↔ Step.index i ∈ steps := by
  rw [List.mem_filterMap]
  constructor
  · rintro ⟨step, hs, h⟩
    cases step with
    | key name => simp [Step.index?] at h
    | index j => simp only [Step.index?, Option.some.injEq] at h; exact h ▸ hs
  · exact fun h => ⟨_, h, rfl⟩

/-- A path may be written to when each of its indices may. -/
theorem excess?_eq_none_iff {p : Path} :
    p.excess? = none ↔ ∀ i, Step.index i ∈ p.steps → i ≤ largestIndex := by
  unfold excess? maxIndex?
  cases h : (p.steps.filterMap Step.index?).max? with
  | none =>
    have hn := List.max?_eq_none_iff.mp h
    simp only [Option.filter_none, true_iff]
    intro i hi
    have := mem_filterMap_index?.mpr hi
    simp [hn] at this
  | some m =>
    obtain ⟨hm, hle⟩ := List.max?_eq_some_iff.mp h
    rw [Option.filter_eq_none_iff]
    constructor
    · intro hx i hi
      have := hle i (mem_filterMap_index?.mpr hi)
      have := hx m rfl
      simp only [decide_eq_true_eq, Nat.not_lt] at this
      omega
    · rintro hx _ ⟨⟩
      have := hx m (mem_filterMap_index?.mp hm)
      simp only [decide_eq_true_eq, Nat.not_lt]
      exact this

end Path

end EventPipeline
