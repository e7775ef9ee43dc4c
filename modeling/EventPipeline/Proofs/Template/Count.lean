import Mathlib.Algebra.GroupWithZero.Nat
import EventPipeline.Proofs.Template.Steps

/-!
How often a value is put into a template. Each occurrence of the name is replaced once, except
those that stand behind another one in a group that loses its brackets: the cursor passes over
them (`Template.interpolate_count`).
-/

namespace EventPipeline.Template

open Text (find? exists_of_find? occurrences)

/-- The group of the next occurrence of a name, if it is in one. -/
def Cursor.nextGroup? (name : List Char) (c : Cursor) : Option Group :=
  (find? name c.before c.after).bind fun found => group? found.1 name found.2

/-- The groups that lose their brackets when the occurrences of a name are replaced, in order. -/
def unwrapped (name : List Char) (hname : name ≠ []) (value : List Char) (c : Cursor) : List Group :=
  match _h : advance name (some value) c with
  | none => []
  | some d => (c.nextGroup? name).toList ++ unwrapped name hname value d
termination_by c.after.length
decreasing_by
  have := advance_after_le _h
  have := List.length_pos_iff.mpr hname
  omega

variable {name value : List Char} {mark : Char} {c d : Cursor} (hname : name ≠ [])

theorem unwrapped_of_none (h : advance name (some value) c = none) :
    unwrapped name hname value c = [] := by
  rw [unwrapped]
  split
  · rfl
  · next h' => rw [h] at h'; cases h'

theorem unwrapped_of_some (h : advance name (some value) c = some d) :
    unwrapped name hname value c =
      (c.nextGroup? name).toList ++ unwrapped name hname value d := by
  rw [unwrapped]
  split
  · next h' => rw [h] at h'; cases h'
  · next h' => rw [h] at h'; cases h'; rfl

/-- A group that loses its brackets has its closing one in the template, and a bracket before it
that may be its opening one. -/
theorem exists_of_mem_unwrapped (hvalue : '(' ∉ value) {text : List Char} (used : List Char)
    (htext : text = used ++ c.after) (hused : '(' ∈ c.before → '(' ∈ used) {g : Group}
    (hg : g ∈ unwrapped name hname value c) :
    ')' ∉ g.tail ∧ ∃ u, text = u ++ name ++ g.tail ++ ')' :: g.rest ∧ '(' ∈ u := by
  induction c using substitute.induct name hname (some value) generalizing used with
  | case1 c h =>
    rw [unwrapped_of_none hname h] at hg
    cases hg
  | case2 c d h ih =>
    rw [unwrapped_of_some hname h, List.mem_append] at hg
    rcases hg with hg | hg
    · rw [Option.mem_toList, Cursor.nextGroup?, Option.bind_eq_some_iff] at hg
      obtain ⟨⟨before, after⟩, hfind, hg⟩ := hg
      obtain ⟨gap, hbefore, hafter⟩ := exists_of_find? hfind
      have hg : g.Encloses before name after := group?_eq_some_iff.mp hg
      refine ⟨hg.tail, used ++ gap, by rw [htext, hafter, hg.after_eq]; simp, ?_⟩
      have hopen : '(' ∈ gap ∨ '(' ∈ c.before := by
        have : '(' ∈ before := by rw [hg.before_eq]; simp
        simpa [hbefore] using this
      exact List.mem_append.mpr (hopen.symm.imp_left hused)
    · obtain ⟨gap, between, hafter, hbefore⟩ := (advance_eq_some_iff.mp h).exists_after_eq
      refine ih (used ++ (gap ++ name ++ between)) (by rw [htext, hafter]; simp)
        (fun hopen => List.mem_append.mpr ?_) hg
      obtain hopen | hopen | ⟨v, hv, hopen⟩ := hbefore _ hopen
      · exact .inl (hused hopen)
      · exact .inr hopen
      · exact absurd (Option.some.inj hv ▸ hopen) hvalue

/-- Every occurrence is replaced by a mark or passed over in the group of another one. -/
theorem count_substitute (hmark : mark ≠ '(') (hc : mark ∉ c.after) :
    (substitute name hname (some [mark]) c).count mark +
        ((unwrapped name hname [mark] c).map fun g => occurrences name g.tail).sum =
      c.before.count mark + occurrences name c.after := by
  -- a step trades an occurrence behind the cursor for a mark before it, and passes over its tail
  induction c using substitute.induct name hname (some [mark]) with
  | case1 c h =>
    rw [substitute_of_none hname h, unwrapped_of_none hname h,
      Text.occurrences_of_find?_eq_none (advance_eq_none_iff.mp h), Cursor.text, List.count_append,
      List.count_reverse, List.count_eq_zero.mpr hc]
    rfl
  | case2 c d h ih =>
    have hstep := advance_eq_some_iff.mp h
    have ih := ih (mt (hstep.suffix.subset ·) hc)
    rw [substitute_of_some hname h, unwrapped_of_some hname h, Cursor.nextGroup?]
    have hfound : ∀ {before after}, find? name c.before c.after = some (before, after) →
        before.count mark = c.before.count mark ∧ mark ∉ after := by
      intro before after hfind
      obtain ⟨gap, rfl, hafter⟩ := exists_of_find? hfind
      rw [hafter] at hc
      have hgap : mark ∉ gap.reverse := by simp_all
      exact ⟨by rw [List.count_append, List.count_eq_zero.mpr hgap, Nat.zero_add], by simp_all⟩
    cases hstep with
    | @plain before after hfind hnone =>
      have hput : ([mark].reverse ++ before).count mark = c.before.count mark + 1 := by
        rw [← (hfound hfind).1, List.reverse_singleton, List.singleton_append, List.count_cons_self]
      change _ = ([mark].reverse ++ before).count mark + occurrences name after at ih
      rw [hput] at ih
      rw [hfind, Option.bind_some, hnone, Option.toList_none, List.nil_append, ih,
        Text.occurrences_of_find? hname hfind]
      omega
    | @unwrapped before after v g hfind hgroup hv =>
      obtain rfl := Option.some.inj hv
      obtain ⟨hbefore, hafter⟩ := hfound hfind
      have htail : mark ∉ g.tail.reverse := fun hm =>
        hafter (hgroup.mem_after (List.mem_reverse.mp hm))
      have hput : (g.tail.reverse ++ ([mark].reverse ++ (g.lead ++ g.outside))).count mark =
          c.before.count mark + 1 := by
        rw [← hbefore, hgroup.before_eq]
        simp only [List.count_append, List.count_eq_zero.mpr htail, List.reverse_singleton,
          List.count_singleton_self, List.count_cons_of_ne (Ne.symm hmark)]
        omega
      have hoccurrences : occurrences name c.after =
          occurrences name g.tail + occurrences name g.rest + 1 := by
        rw [Text.occurrences_of_find? hname hfind, hgroup.after_eq,
          Text.occurrences_append_cons hname hgroup.whole]
      rw [hfind, Option.bind_some, group?_eq_some_iff.mpr hgroup, Option.toList_some,
        List.singleton_append, List.map_cons, List.sum_cons, hoccurrences]
      change _ = (g.tail.reverse ++ ([mark].reverse ++ (g.lead ++ g.outside))).count mark +
        occurrences name g.rest at ih
      rw [hput] at ih
      omega
    | removed _ _ hv => cases hv

/--
A variable whose text is one character, which the template does not have, is put into it as often
as its name occurs there, less the occurrences that stand behind another one in a group that loses
its brackets. So it is put in for every occurrence exactly when there are none of these; there are
none if a closing bracket stands between every two occurrences that have an opening bracket before
them and a closing one behind.
-/
theorem interpolate_count {template name : String} (hname : name.toList ≠ []) (hne : template ≠ name)
    {mark : Char} (hnew : mark ∉ template.toList) (hmark : mark ∉ ['(', ')', '\\']) {value : Tree}
    (hvalue : rendered value = String.singleton mark) :
    ∃ text : String, interpolate template [⟨name, some value⟩] = .text text ∧
      let groups := unwrapped name.toList hname [mark] ⟨[], template.toList⟩
      text.toList.count mark +
          (groups.map fun g => Text.occurrences name.toList g.tail).sum =
        Text.occurrences name.toList template.toList ∧
      (text.toList.count mark = Text.occurrences name.toList template.toList ↔
        ∀ g ∈ groups, ¬ name.toList <:+: g.tail) ∧
      ((∀ u v w x, template.toList =
          u ++ name.toList ++ (v ++ name.toList ++ w) ++ ')' :: x → '(' ∈ u → ')' ∈ v) →
        text.toList.count mark = Text.occurrences name.toList template.toList) := by
  have hopen : '(' ≠ mark := fun h => hmark (h ▸ by decide)
  have htext := interpolate_single (v := ⟨name, some value⟩) hname hne
  simp only [Option.map_some, hvalue, String.toList_singleton] at htext
  have hcount := count_substitute hname (c := ⟨[], template.toList⟩) hopen.symm hnew
  rw [List.count_nil, Nat.zero_add] at hcount
  refine ⟨_, htext, ?_⟩
  rw [String.toList_ofList]
  intro groups
  have hiff : (substitute name.toList hname (some [mark]) ⟨[], template.toList⟩).count mark =
      Text.occurrences name.toList template.toList ↔ ∀ g ∈ groups, ¬ name.toList <:+: g.tail := by
    rw [← hcount, Nat.left_eq_add, List.sum_eq_zero_iff_forall_eq_nat]
    simp only [groups, List.mem_map, forall_exists_index, and_imp, forall_apply_eq_imp_iff₂,
      Text.occurrences_eq_zero_iff hname]
  refine ⟨hcount, hiff, fun hapart => hiff.mpr fun g hg => ?_⟩
  rintro ⟨v, w, htail⟩
  obtain ⟨hclose, u, htemplate, hu⟩ := exists_of_mem_unwrapped hname
    (by simpa using hopen) [] (List.nil_append template.toList).symm (fun h => h) hg
  exact hclose (htail ▸ by simp [hapart u v w g.rest (by rw [htemplate, htail]) hu])

/-- Occurrences outside of groups, in groups of their own, and in a group that is switched off. -/
theorem interpolate_count_apart :
    ∃ text : String, interpolate "$v ($v)(-$v) \\($v $v)" [⟨"$v", some (.text "x")⟩] = .text text ∧
      text.toList.count 'x' = 5 := by
  obtain ⟨text, htext, -, hiff, -⟩ := @interpolate_count "$v ($v)(-$v) \\($v $v)" "$v" (by decide)
    (by decide) 'x' (by decide) (by decide) (.text "x") rfl
  have hgroups : ∀ g ∈ unwrapped "$v".toList (by decide) ['x'] ⟨[], "$v ($v)(-$v) \\($v $v)".toList⟩,
      ¬ "$v".toList <:+: g.tail := by decide +kernel
  exact ⟨text, htext, (hiff.mpr hgroups).trans (by decide +kernel)⟩

/-- The second of two occurrences in one group is passed over. -/
theorem interpolate_count_shared :
    interpolate "($v $v)" [⟨"$v", some (.text "x")⟩] = .text "x $v" ∧
    "x $v".toList.count 'x' = 1 ∧ Text.occurrences "$v".toList "($v $v)".toList = 2 := by
  decide +kernel

end EventPipeline.Template
