import EventPipeline.Config.Basic
import EventPipeline.Proofs.Json.Record

/-!
Transformations are read back from their texts, whatever characters their keys, values and
separators have (`Transform.readList_listText`). Only a separator that is empty stands for another
one, so lists without such are read back as they were (`Transformations.ofJson_listText`).
-/

namespace EventPipeline

open Json

/-- The elements of a list are read one by one. -/
theorem Json.asList_node {α β : Type} {read : Node → Except Problem β} {write : α → Tree}
    {f : α → β} (h : ∀ a, read (write a).node = .ok (f a)) (as : List α) :
    (Tree.array (as.map write)).node.asList read = .ok (as.map f) := by
  have hitems : (Tree.itemNodes (as.map write)).mapM read = .ok (as.map f) := by
    induction as with
    | nil => rfl
    | cons a as ih =>
      rw [List.map_cons, Tree.itemNodes, List.mapM_cons, h, ih]
      rfl
  rw [Tree.node, Node.asList, hitems]
  rfl

theorem Operation.ofUntyped_node (op : Operation) :
    ofUntyped (Tree.text op.name).node = .ok op := by
  refine bind_eq_ok.mpr ⟨op.name, rfl, ?_⟩
  rw [ofName?_name]
  rfl

namespace PathSpec

/-- A path entry as it is read back: the empty separator stands for the default one. -/
def separated (spec : PathSpec) : PathSpec :=
  { spec with separator := Path.orDefault spec.separator }

variable {spec : PathSpec}

theorem separated_of_ne (h : spec.separator ≠ "") : spec.separated = spec := by
  rw [separated, Path.orDefault, if_neg h]

theorem separated_of_eq (h : spec.separator = "") :
    spec.separated = { spec with separator := "." } := by
  rw [separated, Path.orDefault, if_pos h]
  rfl

theorem ofUntyped_node (spec : PathSpec) : ofUntyped spec.tree.node = .ok spec.separated := by
  have hfills : schema.Fills {} [("key", .text spec.key), ("value", .text spec.value),
      ("separator", .text spec.separator)] spec.separated :=
    .cons rfl rfl (.cons rfl rfl (.single rfl rfl))
  have hnames : ["key", "value", "separator"].Nodup := by decide
  exact asObject_fills hfills hnames fun field hf _ => List.mem_map_of_mem (f := Field.name) hf

theorem finite_tree (spec : PathSpec) : spec.tree.Finite := by
  refine .object fun m hm => ?_
  simp only [List.mem_cons, List.not_mem_nil, or_false] at hm
  rcases hm with rfl | rfl | rfl <;> exact .text _

theorem read_text (spec : PathSpec) : read spec.text = .ok spec.separated :=
  (readTyped_text _ spec.finite_tree).trans spec.ofUntyped_node

end PathSpec

namespace Transform

/-- A transformation as it is read back. -/
def separated (t : Transform) : Transform := { t with paths := t.paths.map PathSpec.separated }

theorem separated_of_ne {t : Transform} (h : ∀ spec ∈ t.paths, spec.separator ≠ "") :
    t.separated = t := by
  have hpaths : t.paths.map PathSpec.separated = t.paths.map id :=
    List.map_congr_left fun spec hspec => PathSpec.separated_of_ne (h spec hspec)
  rw [separated, hpaths, List.map_id]

theorem ofUntyped_node (t : Transform) : ofUntyped t.tree.node = .ok t.separated := by
  have hoperation : schema.Fills default [("operation", .text t.operation.name)]
      { operation := t.operation } := by
    refine .single rfl ?_
    simp only [Operation.ofUntyped_node]
    rfl
  have hpaths : schema.Fills { operation := t.operation }
      [("paths", .array (t.paths.map PathSpec.tree))] t.separated := by
    refine .single rfl ?_
    have hlist := asList_node PathSpec.ofUntyped_node t.paths
    exact map_eq_ok.mpr ⟨_, hlist, rfl⟩
  have hnames : ["operation", "paths"].Nodup := by decide
  exact asObject_fills (hoperation.append hpaths) hnames fun field hf _ =>
    List.mem_map_of_mem (f := Field.name) hf

theorem finite_tree (t : Transform) : t.tree.Finite := by
  refine .object fun m hm => ?_
  simp only [List.mem_cons, List.not_mem_nil, or_false] at hm
  rcases hm with rfl | rfl
  · exact .text _
  · refine .array fun x hx => ?_
    obtain ⟨spec, -, rfl⟩ := List.mem_map.mp hx
    exact spec.finite_tree

theorem finite_list (ts : List Transform) : (Tree.array (ts.map tree)).Finite := by
  refine .array fun x hx => ?_
  obtain ⟨t, -, rfl⟩ := List.mem_map.mp hx
  exact t.finite_tree

/-- A list of transformations is read back, with the default separator in place of empty ones. -/
theorem readList_listText (ts : List Transform) : readList (listText ts) = .ok (ts.map separated) :=
  (readTyped_text _ (finite_list ts)).trans (asList_node ofUntyped_node ts)

/-- The text of a list is not blank: it has brackets. -/
theorem allBlank_listText (ts : List Transform) : Text.allBlank (listText ts) = false := by
  rw [Text.allBlank, listText, toList_text (finite_list ts)]
  rfl

end Transform

namespace Transformations

theorem readSetting_listText (setting : String) (ts : List Transform) :
    readSetting setting (Transform.listText ts) = .ok (ts.map Transform.separated) := by
  rw [readSetting, Transform.allBlank_listText, Transform.readList_listText]
  rfl

/--
Transformations whose separators are not empty are read back from the texts of their lists; an
empty separator is read as a point.
-/
theorem ofJson_listText :
    (∀ context data : List Transform,
      (∀ t ∈ context ++ data, ∀ spec ∈ t.paths, spec.separator ≠ "") →
        ofJson (Transform.listText context) (Transform.listText data) = .ok ⟨context, data⟩) ∧
    ∀ spec : PathSpec, spec.separator = "" →
      PathSpec.read spec.text = .ok { spec with separator := "." } := by
  refine ⟨fun context data h => ?_, fun spec hspec => ?_⟩
  · have hsame {ts : List Transform} (hts : ∀ t ∈ ts, t ∈ context ++ data) :
        ts.map Transform.separated = ts.map id :=
      List.map_congr_left fun t ht => Transform.separated_of_ne (h t (hts t ht))
    rw [ofJson, readSetting_listText, readSetting_listText,
      hsame fun t => List.mem_append_left data, hsame fun t => List.mem_append_right context,
      List.map_id, List.map_id]
    rfl
  · rw [PathSpec.read_text, PathSpec.separated_of_eq hspec]

/-- Quotes, a backslash, control characters and characters beyond ASCII. -/
theorem ofJson_listText_escaped :
    let context : List Transform :=
      [⟨.add, [⟨"a\"\\", "\x00\n\x7f", "→"⟩, ⟨"", "", "/"⟩]⟩, ⟨.delete, []⟩]
    let data : List Transform := [⟨.shift, [⟨"ä:𝄞", "$\"v\"", "::"⟩]⟩]
    let bare : PathSpec := ⟨"k\t", "é", ""⟩
    ofJson (Transform.listText context) (Transform.listText data) = .ok ⟨context, data⟩ ∧
      PathSpec.read bare.text = .ok ⟨"k\t", "é", "."⟩ := by
  intro context data bare
  obtain ⟨hlists, hspec⟩ := ofJson_listText
  exact ⟨hlists context data (by decide +kernel), hspec bare rfl⟩

end Transformations

end EventPipeline
