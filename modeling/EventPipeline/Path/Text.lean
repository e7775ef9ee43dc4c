import EventPipeline.Path.Basic
import EventPipeline.Text.Count
import EventPipeline.Text.Search

/-!
Paths as text: segments between separators, each a member name, array indices in brackets, or a
name followed by indices. Every text is a path: empty segments say nothing, and brackets that hold
no index belong to the name before them.
-/

namespace EventPipeline.Path

/-- The separator of a path text that names none. -/
def defaultSeparator : String := "."

/-- A separator, the default one in place of the empty text. -/
def orDefault (separator : String) : String :=
  if separator = "" then defaultSeparator else separator

/--
Takes the indices off the end of a segment, which is given last character first. Returns what is
left, still last character first, and the indices in their order, followed by `indices`.
-/
def takeIndices (segment : List Char) (indices : List Nat) : List Char × List Nat :=
  match segment with
  | ']' :: body =>
    match _h : body.dropWhile (· != '[') with
    | _ :: outer =>
      match Text.readCount? (body.takeWhile (· != '[')).reverse with
      | some i => takeIndices outer (i :: indices)
      | none => (segment, indices)
    | [] => (segment, indices)
  | _ => (segment, indices)
termination_by segment.length
decreasing_by
  have := (List.dropWhile_sublist (l := body) (· != '[')).length_le
  simp_all only [List.length_cons]
  omega

/-- The steps of one segment. -/
def segmentSteps (segment : List Char) : List Step :=
  let (name, indices) := takeIndices segment.reverse []
  (if name = [] then [] else [.key (String.ofList name.reverse)]) ++ indices.map .index

/-- Reads a path, given the text between its segments. -/
def parse (text separator : String) : Path :=
  ⟨(Text.split (orDefault separator).toList text.toList).flatMap segmentSteps⟩

/-- A path that is read from a text leads to no member with the empty name. -/
theorem key_empty_notMem_parse (text separator : String) :
    Step.key "" ∉ (parse text separator).steps := by
  intro h
  obtain ⟨segment, -, hs⟩ := List.mem_flatMap.mp h
  simp only [segmentSteps] at hs
  rcases List.mem_append.mp hs with hs | hs
  · split at hs
    · cases hs
    · next hname => exact hname (by simpa using hs)
  · simp at hs

/-- The text of the steps that follow a first one. -/
def tailText : List Step → String
  | [] => ""
  | .key name :: rest => "." ++ name ++ tailText rest
  | .index i :: rest => "[" ++ toString i ++ "]" ++ tailText rest

/-- A path as messages show it: names after points, indices in brackets, a point for the root. -/
def display : Path → String
  | ⟨[]⟩ => "."
  | ⟨.key name :: rest⟩ => name ++ tailText rest
  | ⟨steps⟩ => tailText steps

end EventPipeline.Path
