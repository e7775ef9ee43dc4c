import EventPipeline.Proofs.Template.Steps

/-!
Templates without groups. Where one of the two brackets does not occur at all, filling in the
variables is nothing but replacing text, one name after the other
(`Template.interpolate_eq_foldlM`).
-/

namespace EventPipeline.Template

open Text (find? exists_of_find? replaceAll)

variable {name : List Char} {value : Option (List Char)} {c d : Cursor} {b : Char}

/-- What a name is replaced by, outside of groups. -/
def Variable.replacement (v : Variable) : List Char := (v.value.elim v.name rendered).toList

/-- One turn: a variable whose name is the whole text ends the run with its value; otherwise its
name is replaced wherever it occurs. -/
def replaceIn (text : List Char) (v : Variable) : Except Tree (List Char) :=
  if v.name = "" then .ok text
  else if text = v.name.toList then .error (v.value.getD (.text v.name))
  else .ok (replaceAll v.name.toList v.replacement text)

/-- A bracket that a text does not have comes only with a value. -/
theorem Replaces.notMem_text (h : Replaces name value c d) (hvalue : ∀ v, value = some v → b ∉ v)
    (hc : b ∉ c.text) : b ∉ d.text := by
  obtain ⟨l, m, m', r, hc', hd', hpart⟩ := h.exists_text_eq
  rw [hc'] at hc
  rw [hd']
  simp only [List.mem_append, not_or] at hc ⊢
  exact ⟨⟨hc.1.1, hpart.notMem hvalue hc.1.2⟩, hc.2⟩

/-- It takes both brackets to make a group. -/
theorem group?_of_notMem {before after : List Char} (hb : b = '(' ∨ b = ')')
    (h : b ∉ before.reverse ++ name ++ after) : group? before name after = none := by
  simp only [List.mem_append, List.mem_reverse, not_or] at h
  rcases hb with rfl | rfl
  · exact group?_of_notMem_before h.1.1
  · exact group?_of_notMem_after h.2

theorem substitute_eq_replaceAll (hname : name ≠ []) (hb : b = '(' ∨ b = ')')
    (hvalue : ∀ v, value = some v → b ∉ v) (hc : b ∉ c.text) :
    substitute name hname value c =
      c.before.reverse ++ replaceAll name (value.getD name) c.after := by
  induction c using substitute.induct name hname value with
  | case1 c h =>
    have hnone : find? name [] c.after = none :=
      Text.find?_eq_none_iff.mpr (Text.find?_eq_none_iff.mp (advance_eq_none_iff.mp h))
    rw [substitute_of_none hname h, Text.replaceAll_of_find?_eq_none hnone, Cursor.text]
  | case2 c d h ih =>
    have hstep := advance_eq_some_iff.mp h
    rw [substitute_of_some hname h, ih (hstep.notMem_text hvalue hc)]
    have hnone : ∀ {before after}, find? name c.before c.after = some (before, after) →
        group? before name after = none := fun hfind =>
      group?_of_notMem hb (Text.find?_eq_some hfind ▸ hc)
    cases hstep with
    | @plain before after hfind _ =>
      rw [Text.find?_eq_map, Option.map_eq_some_iff] at hfind
      obtain ⟨⟨gap, after'⟩, hfind, hpair⟩ := hfind
      obtain ⟨rfl, rfl⟩ := Prod.mk.inj hpair
      rw [Text.replaceAll_of_find? hname hfind]
      simp
    | unwrapped hfind hgroup _ | removed hfind hgroup _ =>
      cases (hnone hfind).symm.trans (group?_eq_some_iff.mpr hgroup)

/-- No bracket comes into a text but with a value. -/
theorem notMem_substitute (hname : name ≠ []) (hvalue : ∀ v, value = some v → b ∉ v)
    (hc : b ∉ c.text) : b ∉ substitute name hname value c :=
  invariant_substitute (P := (b ∉ ·)) hname (fun _ _ hc hstep => hstep.notMem_text hvalue hc) hc

theorem fill_eq_foldlM (hb : b = '(' ∨ b = ')') {text : List Char} {vars : List Variable}
    (htext : b ∉ text) (hvars : ∀ v ∈ vars, ∀ t ∈ v.value, b ∉ (rendered t).toList) :
    fill text vars =
      match vars.foldlM replaceIn text with
      | .error result => result
      | .ok text => .text (String.ofList text) := by
  induction vars generalizing text with
  | nil => rfl
  | cons v vs ih =>
    have hvs : ∀ w ∈ vs, ∀ t ∈ w.value, b ∉ (rendered t).toList :=
      fun w hw => hvars w (List.mem_cons_of_mem v hw)
    rw [List.foldlM_cons, fill, replaceIn]
    by_cases hname : v.name.toList = []
    · rw [dif_pos hname, if_pos (String.toList_eq_nil_iff.mp hname)]
      exact ih htext hvs
    rw [dif_neg hname, if_neg (mt String.toList_eq_nil_iff.mpr hname)]
    split
    · rfl
    · have hvalue : ∀ s, (v.value.map fun t => (rendered t).toList) = some s → b ∉ s := by
        intro s hs
        obtain ⟨t, ht, rfl⟩ := Option.map_eq_some_iff.mp hs
        exact hvars v List.mem_cons_self t ht
      have hreplacement : (v.value.map fun t => (rendered t).toList).getD v.name.toList =
          v.replacement := by
        cases h : v.value <;> simp [Variable.replacement, h]
      rw [ih (notMem_substitute (c := ⟨[], text⟩) hname hvalue htext) hvs,
        substitute_eq_replaceAll hname hb hvalue (c := ⟨[], text⟩) htext, hreplacement]
      rfl

/--
Where one of the brackets occurs neither in the template nor in a value, the variables are filled
in by replacing all occurrences of one name after the other, up to a variable whose name is the
whole text.
-/
theorem interpolate_eq_foldlM (template : String) (vars : List Variable)
    (h : ∃ b ∈ ['(', ')'], b ∉ template.toList ∧
      ∀ v ∈ vars, ∀ t ∈ v.value, b ∉ (rendered t).toList) :
    interpolate template vars =
      match vars.foldlM replaceIn template.toList with
      | .error result => result
      | .ok text => .text (String.ofList text) := by
  obtain ⟨b, hb, htemplate, hvars⟩ := h
  exact fill_eq_foldlM (by simpa using hb) htemplate hvars

/-- A name that overlaps itself, also in its value; one that is empty, one that is a bracket and
undefined; and one that is all that the others have left. -/
theorem interpolate_eq_foldlM_overlapping :
    interpolate "aaa\\(é"
      [⟨"aa", some (.text "aab")⟩, ⟨"", some .null⟩, ⟨"(", none⟩, ⟨"ba", some (.text "-\\")⟩] =
        .text "aa-\\\\(é" ∧
    interpolate "aaa(" [⟨"aa", some (.text "aaa")⟩, ⟨"aaaa(", some (.bool true)⟩, ⟨"a", none⟩] =
      .bool true := by
  have hfirst := interpolate_eq_foldlM "aaa\\(é"
    [⟨"aa", some (.text "aab")⟩, ⟨"", some .null⟩, ⟨"(", none⟩, ⟨"ba", some (.text "-\\")⟩]
    ⟨')', by decide, by decide, by decide +kernel⟩
  have hsecond := interpolate_eq_foldlM "aaa("
    [⟨"aa", some (.text "aaa")⟩, ⟨"aaaa(", some (.bool true)⟩, ⟨"a", none⟩]
    ⟨')', by decide, by decide, by decide +kernel⟩
  exact ⟨hfirst.trans (by decide +kernel), hsecond.trans (by decide +kernel)⟩

end EventPipeline.Template
