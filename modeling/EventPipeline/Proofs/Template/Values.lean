import EventPipeline.Proofs.Template.Marked

/-!
Which values are only text. A value is text in a template when it fills it as a mark does that is
replaced by the value afterwards. Every value is, as long as no group ends behind a second
occurrence of the name; and values that are inert are text in every template, and only they
(`Template.interpolate_marked`).
-/

namespace EventPipeline.Template

open Text (find? exists_of_find?)

/-- The value of a variable fills a template as a mark does that is replaced by it. -/
def IsText (template name value : String) (mark : Char) : Prop :=
  ∃ marked : String,
    interpolate template [⟨name, some (.text (String.singleton mark))⟩] = .text marked ∧
    interpolate template [⟨name, some (.text value)⟩] =
      .text (String.ofList (expand mark value.toList marked.toList))

theorem isText_iff {template name value : String} {mark : Char} (hname : name.toList ≠ [])
    (hne : template ≠ name) :
    IsText template name value mark ↔
      substitute name.toList hname (some value.toList) ⟨[], template.toList⟩ =
        expand mark value.toList
          (substitute name.toList hname (some [mark]) ⟨[], template.toList⟩) := by
  have hmark := interpolate_single (v := ⟨name, some (.text (String.singleton mark))⟩) hname hne
  have hvalue := interpolate_single (v := ⟨name, some (.text value)⟩) hname hne
  simp only [Option.map_some, rendered, String.toList_singleton] at hmark hvalue
  simp only [IsText, hmark, hvalue, Tree.text.injEq, String.ofList_inj]
  constructor
  · rintro ⟨marked, rfl, h⟩
    simpa using h
  · intro h
    exact ⟨_, rfl, by simpa using h⟩

section

variable {mark : Char} {name value text : List Char} (hname : name ≠ [])

theorem substitute_of_inert (hmark : mark ∉ text) (hbracket : mark ≠ '(' ∧ mark ≠ '\\')
    (h : Inert value text) :
    substitute name hname (some value) ⟨[], text⟩ =
      expand mark value (substitute name hname (some [mark]) ⟨[], text⟩) := by
  refine substitute_expand hname (c := ⟨[], text⟩)
    (P := fun c => mark ∉ c.after ∧ (value = [] → '\\' ∉ c.before ∧ '\\' ∉ c.after))
    (fun c d hc hstep => ?_) (fun c hc => hc.1) (fun c hc before after hfind => ?_)
    ⟨hmark, fun hnil => ⟨List.not_mem_nil, h.empty hnil⟩⟩
  · have hsub := hstep.suffix.subset
    obtain ⟨gap, between, hafter, hbefore⟩ := hstep.exists_after_eq
    refine ⟨mt (hsub ·) hc.1, fun hnil => ⟨fun hx => ?_, mt (hsub ·) (hc.2 hnil).2⟩⟩
    obtain hx | hx | ⟨v, hv, hx⟩ := hbefore _ hx
    · exact (hc.2 hnil).1 hx
    · exact (hc.2 hnil).2 (hafter ▸ List.mem_append_left _ hx)
    · cases hv
      exact hbracket.2 (List.mem_singleton.mp hx).symm
  · refine group?_expand hbracket ⟨h.bracket, h.backslash, fun hnil hx => ?_⟩
    obtain ⟨gap, rfl, hafter⟩ := exists_of_find? hfind
    obtain ⟨hbefore, hafter'⟩ := hc.2 hnil
    simp_all

/-- Nothing has been put before the first occurrence. -/
theorem groupedAlike_of_notMem {c : Cursor} (hbefore : mark ∉ c.before) (hafter : mark ∉ c.after) :
    GroupedAlike mark value name c := by
  intro before after hfind
  obtain ⟨gap, rfl, htext⟩ := exists_of_find? hfind
  have hnone : mark ∉ gap.reverse ++ c.before := by simp_all
  rw [expand_of_notMem hnone]
  cases hg : group? (gap.reverse ++ c.before) name after with
  | none => rfl
  | some g =>
    have hgroup := group?_eq_some_iff.mp hg
    have hlead : mark ∉ g.lead := fun h => hnone (hgroup.mem_before (List.mem_append_left _ h))
    have houtside : mark ∉ g.outside := fun h =>
      hnone (hgroup.mem_before (List.mem_append_right _ h))
    simp only [Option.map_some, Group.expand, expand_of_notMem hlead, expand_of_notMem houtside]

theorem substitute_of_late (hmark : mark ∉ text)
    (h : ∀ u v w, text = u ++ name ++ v ++ name ++ w → ')' ∉ w) :
    substitute name hname (some value) ⟨[], text⟩ =
      expand mark value (substitute name hname (some [mark]) ⟨[], text⟩) := by
  refine substitute_expand hname (c := ⟨[], text⟩)
    (P := fun c => mark ∉ c.after ∧ (c = ⟨[], text⟩ ∨ ∃ u v, text = u ++ name ++ v ++ c.after))
    (fun c d hc hstep => ?_) (fun c hc => hc.1) (fun c hc => ?_) ⟨hmark, .inl rfl⟩
  · refine ⟨mt (hstep.suffix.subset ·) hc.1, .inr ?_⟩
    obtain ⟨gap, between, hafter, -⟩ := hstep.exists_after_eq
    obtain rfl | ⟨u, v, htext⟩ := hc.2
    · exact ⟨gap, between, hafter⟩
    · exact ⟨u, v ++ gap ++ name ++ between, by rw [htext, hafter]; simp⟩
  · obtain rfl | ⟨u, v, htext⟩ := hc.2
    · exact groupedAlike_of_notMem List.not_mem_nil hmark
    · intro before after hfind
      obtain ⟨gap, -, hafter⟩ := exists_of_find? hfind
      have hlate : ')' ∉ after := h u (v ++ gap) after (by rw [htext, hafter]; simp)
      rw [group?_of_notMem_after hlate, group?_of_notMem_after hlate, Option.map_none]

theorem substitute_of_bracketed (hmark : mark ∉ text)
    (h : name.head? = some '(' ∨ ')' ∈ name) :
    substitute name hname (some value) ⟨[], text⟩ =
      expand mark value (substitute name hname (some [mark]) ⟨[], text⟩) := by
  refine substitute_expand hname (c := ⟨[], text⟩) (P := fun c => mark ∉ c.after)
    (fun c d hc hstep => mt (hstep.suffix.subset ·) hc) (fun c hc => hc) (fun c hc => ?_) hmark
  intro before after _
  have hnone : ∀ before', group? before' name after = none := fun before' =>
    Option.eq_none_iff_forall_ne_some.mpr fun g hg =>
      h.elim (group?_eq_some_iff.mp hg).start (group?_eq_some_iff.mp hg).whole
  rw [hnone, hnone, Option.map_none]

end

/-- Texts without brackets, and without what disables them. -/
structure Bare (text : List Char) : Prop where
  opening : '(' ∉ text
  closing : ')' ∉ text
  backslash : '\\' ∉ text

section

variable {name value before lead outside : List Char} (hname : name ≠ [])

/-- What becomes of an occurrence at the end of a template, before a closing bracket and behind a
text without an opening one. -/
theorem substitute_last_of_notMem (hbare : Bare name) (hopen : '(' ∉ before) :
    substitute name hname (some value) ⟨before, name ++ [')']⟩ =
      before.reverse ++ value ++ [')'] := by
  rw [substitute_plain hname (group?_of_notMem_before hopen), substitute_cons hname hbare.closing,
    substitute_nil]
  simp

/-- A name without brackets can be in any group. -/
theorem Bare.encloses (hbare : Bare name) (hlead : '(' ∉ lead) (hlive : outside.head? ≠ some '\\')
    (rest : List Char) :
    Group.Encloses ⟨outside, lead, [], rest⟩ (lead ++ '(' :: outside) name (')' :: rest) where
  start h := hbare.opening (List.mem_of_mem_head? h)
  whole := hbare.closing
  before_eq := rfl
  lead := hlead
  after_eq := rfl
  tail := List.not_mem_nil
  opens := hlive
  closes h := hbare.backslash (by simpa using List.mem_of_getLast? h)

/-- What becomes of an occurrence at the end of a template, in brackets of which the first one may
be disabled. -/
theorem substitute_last (hbare : Bare name) (hlead : '(' ∉ lead) :
    substitute name hname (some value) ⟨lead ++ '(' :: outside, name ++ [')']⟩ =
      if outside.head? = some '\\' then (lead ++ '(' :: outside).reverse ++ value ++ [')']
      else outside.reverse ++ lead.reverse ++ value := by
  split
  · next hescaped =>
    have hnone : group? (lead ++ '(' :: outside) name [')'] = none := by
      refine Option.eq_none_iff_forall_ne_some.mpr fun g hg => ?_
      have hg := group?_eq_some_iff.mp hg
      obtain ⟨-, rfl⟩ := Text.eq_and_eq_of_append_cons hlead hg.lead hg.before_eq
      exact hg.opens hescaped
    rw [substitute_plain hname hnone, substitute_cons hname hbare.closing, substitute_nil]
    simp
  · next hlive =>
    rw [substitute_unwrapped hname (hbare.encloses hlead hlive []), substitute_nil]
    simp

variable {mark : Char} (hbare : Bare name) (hmark : Bare [mark])

include hbare hmark

/-- A bracket in the value makes a group of a later occurrence where there was none, or takes the
place of the bracket of its group. -/
theorem bracket_notMem_of_alike
    (hpair : substitute name hname (some value) ⟨[], name ++ (name ++ [')'])⟩ =
      expand mark value (substitute name hname (some [mark]) ⟨[], name ++ (name ++ [')'])⟩))
    (hnested : substitute name hname (some value)
        ⟨[], '(' :: '(' :: (name ++ (')' :: (name ++ [')'])))⟩ =
      expand mark value (substitute name hname (some [mark])
        ⟨[], '(' :: '(' :: (name ++ (')' :: (name ++ [')'])))⟩)) :
    '(' ∉ value := by
  intro hmem
  obtain ⟨lead, outside, hvalue, hlead⟩ :=
    List.eq_append_cons_of_mem (List.mem_reverse.mpr hmem)
  have hlength : lead.length + (outside.length + 1) = value.length := by
    simpa using (congrArg List.length hvalue).symm
  by_cases hescaped : outside.head? = some '\\'
  · -- the bracket in the value is disabled, so that the outer group is not found
    have hinner : ('(' :: []).head? ≠ some '\\' := by decide
    have hfirst : ∀ v : List Char, substitute name hname (some v)
        ⟨[], '(' :: '(' :: (name ++ (')' :: (name ++ [')'])))⟩ =
          substitute name hname (some v) ⟨v.reverse ++ '(' :: [], name ++ [')']⟩ := fun v => by
      rw [substitute_cons hname hbare.opening, substitute_cons hname hbare.opening,
        ← List.nil_append ['(', '('],
        substitute_unwrapped hname (hbare.encloses List.not_mem_nil hinner _)]
      rfl
    have hescaped' : (outside ++ '(' :: []).head? = some '\\' := by
      rw [List.head?_append, hescaped]
      rfl
    rw [hfirst, hfirst, hvalue, List.append_assoc, List.cons_append,
      substitute_last hname hbare hlead, if_pos hescaped',
      substitute_last hname hbare (mt List.mem_reverse.mp hmark.opening),
      if_neg (by simp)] at hnested
    have := congrArg List.length hnested
    simp at this
    omega
  · -- the bracket in the value opens a group
    have hfirst : ∀ v : List Char, substitute name hname (some v) ⟨[], name ++ (name ++ [')'])⟩ =
        substitute name hname (some v) ⟨v.reverse, name ++ [')']⟩ := fun v => by
      rw [substitute_plain hname (group?_of_notMem_before List.not_mem_nil), List.append_nil]
      rfl
    rw [hfirst, hfirst, hvalue, substitute_last hname hbare hlead, if_neg hescaped,
      substitute_last_of_notMem hname hbare (mt List.mem_reverse.mp hmark.opening)] at hpair
    have := congrArg List.length hpair
    have hclosing : ')' ≠ mark := fun h => hmark.closing (List.mem_singleton.mpr h)
    simp [hclosing] at this
    omega

/-- A backslash at the end of the value disables the bracket of the group behind it. -/
theorem getLast?_ne_of_alike
    (h : substitute name hname (some value) ⟨[], name ++ '(' :: (name ++ [')'])⟩ =
      expand mark value (substitute name hname (some [mark]) ⟨[], name ++ '(' :: (name ++ [')'])⟩)) :
    value.getLast? ≠ some '\\' := by
  have hfirst : ∀ v : List Char,
      substitute name hname (some v) ⟨[], name ++ '(' :: (name ++ [')'])⟩ =
        substitute name hname (some v) ⟨[] ++ '(' :: v.reverse, name ++ [')']⟩ := fun v => by
    rw [substitute_plain hname (group?_of_notMem_before List.not_mem_nil),
      substitute_cons hname hbare.opening, List.append_nil]
    rfl
  intro hlast
  have hescaped : value.reverse.head? = some '\\' := List.head?_reverse.trans hlast
  have hmark' : [mark].reverse.head? ≠ some '\\' := fun h =>
    hmark.backslash (List.mem_of_mem_head? h)
  rw [hfirst, hfirst, substitute_last hname hbare List.not_mem_nil, if_pos hescaped,
    substitute_last hname hbare List.not_mem_nil, if_neg hmark'] at h
  have := congrArg List.length h
  simp at this
  omega

/-- Where nothing is put in, a backslash before the occurrence disables the bracket behind it. -/
theorem ne_nil_of_alike
    (h : substitute name hname (some value) ⟨[], '\\' :: (name ++ '(' :: (name ++ [')']))⟩ =
      expand mark value
        (substitute name hname (some [mark]) ⟨[], '\\' :: (name ++ '(' :: (name ++ [')']))⟩)) :
    value ≠ [] := by
  have hfirst : ∀ v : List Char,
      substitute name hname (some v) ⟨[], '\\' :: (name ++ '(' :: (name ++ [')']))⟩ =
        substitute name hname (some v) ⟨[] ++ '(' :: (v.reverse ++ ['\\']), name ++ [')']⟩ :=
    fun v => by
      rw [substitute_cons hname hbare.backslash,
        substitute_plain hname (group?_of_notMem_before (by decide)),
        substitute_cons hname hbare.opening]
      rfl
  rintro rfl
  have hmark' : ([mark].reverse ++ ['\\']).head? ≠ some '\\' := fun h =>
    hmark.backslash (List.mem_singleton.mpr (Option.some.inj h).symm)
  rw [hfirst, hfirst, substitute_last hname hbare List.not_mem_nil, if_pos (by rfl),
    substitute_last hname hbare List.not_mem_nil, if_neg hmark'] at h
  have := congrArg List.length h
  have hslash : '\\' ≠ mark := fun h => hmark.backslash (List.mem_singleton.mpr h)
  simp [hslash] at this

end

/-- A template with a closing bracket is not a bare name. -/
theorem Bare.ofList_ne {name : String} (hbare : Bare name.toList) {text : List Char}
    (hclose : ')' ∈ text) : String.ofList text ≠ name :=
  fun h => hbare.closing (h ▸ by simpa using hclose)

/-- Values of a bare name that are text in every template without backslashes. -/
theorem of_isText {name value : String} {mark : Char} (hname : name.toList ≠ [])
    (hbare : Bare name.toList) (hmark : Bare [mark]) (hnew : mark ∉ name.toList)
    (h : ∀ template : String, template ≠ name → mark ∉ template.toList →
      '\\' ∉ template.toList → IsText template name value mark) :
    '(' ∉ value.toList ∧ value.toList.getLast? ≠ some '\\' := by
  have halike : ∀ text : List Char, ')' ∈ text → mark ∉ text → '\\' ∉ text →
      substitute name.toList hname (some value.toList) ⟨[], text⟩ =
        expand mark value.toList (substitute name.toList hname (some [mark]) ⟨[], text⟩) := by
    intro text hclose hnew hslash
    have hne := hbare.ofList_ne hclose
    simpa using (isText_iff hname hne).mp
      (h (String.ofList text) hne (by simpa using hnew) (by simpa using hslash))
  obtain ⟨hopening, hclosing⟩ : mark ≠ '(' ∧ mark ≠ ')' :=
    ⟨fun h => hmark.opening (h ▸ List.mem_singleton_self _),
      fun h => hmark.closing (h ▸ List.mem_singleton_self _)⟩
  have hslash := hbare.backslash
  exact ⟨bracket_notMem_of_alike hname hbare hmark
      (halike _ (by simp) (by simp [hnew, hclosing]) (by simp [hslash]))
      (halike _ (by simp) (by simp [hnew, hopening, hclosing]) (by simp [hslash])),
    getLast?_ne_of_alike hname hbare hmark
      (halike _ (by simp) (by simp [hnew, hopening, hclosing]) (by simp [hslash]))⟩

/--
Filling in the value of a variable is filling in a mark and putting the value in its place, when
the value is inert, when no group ends behind a second occurrence of the name, or when the name
cannot be in a group. Of the values of a bare name, no others are text in every template: they
have no opening bracket and no backslash at their end, and they are not empty, unless the
templates have no backslash.
-/
theorem interpolate_marked {name : String} (hname : name ≠ "") {mark : Char}
    (hnew : mark ∉ name.toList) (hmark : mark ∉ ['(', ')', '\\']) (value : String) :
    (∀ template : String, template ≠ name → mark ∉ template.toList →
      Inert value.toList template.toList ∨
        (∀ u v w, template.toList = u ++ name.toList ++ v ++ name.toList ++ w → ')' ∉ w) ∨
        (name.toList.head? = some '(' ∨ ')' ∈ name.toList) →
      IsText template name value mark) ∧
    (Bare name.toList →
      ((∀ template : String, template ≠ name → mark ∉ template.toList →
          '\\' ∉ template.toList → IsText template name value mark) ↔
        '(' ∉ value.toList ∧ value.toList.getLast? ≠ some '\\') ∧
      ((∀ template : String, template ≠ name → mark ∉ template.toList →
          IsText template name value mark) ↔
        '(' ∉ value.toList ∧ value.toList.getLast? ≠ some '\\' ∧ value ≠ "")) := by
  have hname : name.toList ≠ [] := mt String.toList_eq_nil_iff.mp hname
  have hbracket : mark ≠ '(' ∧ mark ≠ ')' ∧ mark ≠ '\\' := by simpa using hmark
  have hmark : Bare [mark] := by
    constructor <;> simp [hbracket.1.symm, hbracket.2.1.symm, hbracket.2.2.symm]
  have hinert : ∀ template : String, template ≠ name → mark ∉ template.toList →
      Inert value.toList template.toList → IsText template name value mark :=
    fun template hne hnew h => (isText_iff hname hne).mpr
      (substitute_of_inert hname hnew ⟨hbracket.1, hbracket.2.2⟩ h)
  refine ⟨fun template hne hnew h => ?_, fun hbare => ⟨⟨of_isText hname hbare hmark hnew, ?_⟩,
    fun h => ?_, ?_⟩⟩
  · rcases h with h | h | h
    · exact hinert template hne hnew h
    · exact (isText_iff hname hne).mpr (substitute_of_late hname hnew h)
    · exact (isText_iff hname hne).mpr (substitute_of_bracketed hname hnew h)
  · rintro ⟨hbracket, hlast⟩ template hne hnew hslash
    exact hinert template hne hnew ⟨hbracket, hlast, fun _ => hslash⟩
  · obtain ⟨hopening, hlast⟩ := of_isText hname hbare hmark hnew fun t hne hnew _ => h t hne hnew
    refine ⟨hopening, hlast, mt String.toList_eq_nil_iff.mpr ?_⟩
    have hne : String.ofList ('\\' :: (name.toList ++ '(' :: (name.toList ++ [')']))) ≠ name :=
      hbare.ofList_ne (by simp)
    refine ne_nil_of_alike hname hbare hmark ?_
    simpa using (isText_iff hname hne).mp (h _ hne (by simp [hnew, hbracket]))
  · rintro ⟨hbracket, hlast, hempty⟩ template hne hnew
    exact hinert template hne hnew
      ⟨hbracket, hlast, fun hnil => absurd (String.toList_eq_nil_iff.mp hnil) hempty⟩

/-- A value with a closing bracket, in a template with a group that is switched off, a group and
text behind it. -/
theorem interpolate_marked_bracket :
    interpolate "\\($v) [$v] (-$v)" [⟨"$v", some (.text "a)")⟩] = .text "\\(a)) [a)] -a)" := by
  obtain ⟨marked, hmarked, hvalue⟩ := (@interpolate_marked "$v" (by decide) 'x'
    (by decide) (by decide) "a)").1 "\\($v) [$v] (-$v)" (by decide) (by decide)
    (.inl ⟨by decide, by decide, by decide⟩)
  have hmark : interpolate "\\($v) [$v] (-$v)" [⟨"$v", some (.text (String.singleton 'x'))⟩] =
      .text "\\(x) [x] -x" := by decide +kernel
  obtain rfl := Tree.text.inj (hmark.symm.trans hmarked)
  exact hvalue.trans (by decide +kernel)

/-- A bracket in the value takes the place of the bracket that a group needs: what was put in for
the first occurrence is changed by the second one. -/
theorem interpolate_marked_reopened :
    "$v $v)" ≠ "$v" ∧ 'x' ∉ "$v $v)".toList ∧
    interpolate "$v $v)" [⟨"$v", some (.text "x")⟩] = .text "x x)" ∧
    interpolate "$v $v)" [⟨"$v", some (.text "(")⟩] = .text " (" ∧
    ¬ IsText "$v $v)" "$v" "(" 'x' := by
  have hmark : interpolate "$v $v)" [⟨"$v", some (.text (String.singleton 'x'))⟩] =
      .text "x x)" := by decide +kernel
  have hvalue : interpolate "$v $v)" [⟨"$v", some (.text "(")⟩] = .text " (" := by decide +kernel
  refine ⟨by decide, by decide, hmark, hvalue, ?_⟩
  rintro ⟨marked, hmarked, hexpanded⟩
  obtain rfl := Tree.text.inj (hmark.symm.trans hmarked)
  exact absurd (hvalue.symm.trans hexpanded) (by decide +kernel)

end EventPipeline.Template
