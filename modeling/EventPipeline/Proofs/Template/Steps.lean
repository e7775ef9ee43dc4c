import EventPipeline.Template
import EventPipeline.Proofs.Text.Occurrences

/-!
What replacing one occurrence of a name does (`Template.advance_eq_some_iff`), and what a run of
such steps keeps (`Template.exists_substitute_eq`).
-/

namespace EventPipeline.Template

/-- The brackets around an occurrence of a name: the nearest ones, neither of them disabled. -/
structure Group.Encloses (g : Group) (before name after : List Char) : Prop where
  start : name.head? ≠ some '('
  whole : ')' ∉ name
  before_eq : before = g.lead ++ '(' :: g.outside
  lead : '(' ∉ g.lead
  after_eq : after = g.tail ++ ')' :: g.rest
  tail : ')' ∉ g.tail
  opens : g.outside.head? ≠ some '\\'
  closes : (name ++ g.tail).getLast? ≠ some '\\'

variable {before name after : List Char} {value : Option (List Char)} {c d : Cursor} {g : Group}

/-- The nearest brackets make a group, unless one of them is disabled. -/
theorem group?_eq_ite (hstart : name.head? ≠ some '(') (hwhole : ')' ∉ name) (hlead : '(' ∉ g.lead)
    (htail : ')' ∉ g.tail) :
    group? (g.lead ++ '(' :: g.outside) name (g.tail ++ ')' :: g.rest) =
      if g.outside.head? = some '\\' ∨ (name ++ g.tail).getLast? = some '\\' then none
      else some g := by
  have hname : (decide (name.head? = some '(') || name.contains ')') = false := by
    simp [hstart, hwhole]
  rw [group?, hname, if_neg Bool.false_ne_true, Text.takeWhile_ne_append_cons hlead,
    Text.takeWhile_ne_append_cons htail, Text.dropWhile_ne_append_cons hlead,
    Text.dropWhile_ne_append_cons htail]
  simp only [Bool.or_eq_true, decide_eq_true_eq]

theorem group?_eq_some_iff : group? before name after = some g ↔ g.Encloses before name after := by
  constructor
  · intro h
    unfold group? at h
    split at h
    · cases h
    · next hname =>
      simp only at h
      split at h
      · next x outside y rest hopen hclose =>
        split at h
        · cases h
        · next hlive =>
          cases h
          obtain ⟨hbefore, hlead⟩ := Text.eq_takeWhile_append hopen
          obtain ⟨hafter, htail⟩ := Text.eq_takeWhile_append hclose
          simp only [Bool.or_eq_true, decide_eq_true_eq, not_or, List.contains_eq_mem] at hname hlive
          exact ⟨hname.1, hname.2, hbefore, hlead, hafter, htail, hlive.1, hlive.2⟩
      · cases h
  · intro h
    rw [h.before_eq, h.after_eq, group?_eq_ite h.start h.whole h.lead h.tail,
      if_neg (not_or.mpr ⟨h.opens, h.closes⟩)]

theorem group?_of_head (h : name.head? = some '(') : group? before name after = none := by
  simp [group?, h]

theorem group?_of_whole (h : ')' ∈ name) : group? before name after = none := by
  simp [group?, h]

theorem group?_of_notMem_before (h : '(' ∉ before) : group? before name after = none := by
  refine Option.eq_none_iff_forall_ne_some.mpr fun g hg => h ?_
  rw [(group?_eq_some_iff.mp hg).before_eq]
  simp

theorem group?_of_notMem_after (h : ')' ∉ after) : group? before name after = none := by
  refine Option.eq_none_iff_forall_ne_some.mpr fun g hg => h ?_
  rw [(group?_eq_some_iff.mp hg).after_eq]
  simp

/-- How a replacement changes a cursor. -/
inductive Replaces (name : List Char) (value : Option (List Char)) (c : Cursor) : Cursor → Prop where
  /-- Outside of groups, the value stands in the place of the name. -/
  | plain {before after : List Char} :
    Text.find? name c.before c.after = some (before, after) → group? before name after = none →
      Replaces name value c ⟨(value.getD name).reverse ++ before, after⟩
  /-- The group of a variable that is defined loses its brackets. -/
  | unwrapped {before after v : List Char} {g : Group} :
    Text.find? name c.before c.after = some (before, after) → g.Encloses before name after →
      value = some v →
      Replaces name value c ⟨g.tail.reverse ++ (v.reverse ++ (g.lead ++ g.outside)), g.rest⟩
  /-- The group of a variable that is not defined is left out. -/
  | removed {before after : List Char} {g : Group} :
    Text.find? name c.before c.after = some (before, after) → g.Encloses before name after →
      value = none → Replaces name value c ⟨g.outside, g.rest⟩

theorem advance_eq_none_iff :
    advance name value c = none ↔ Text.find? name c.before c.after = none := by
  unfold advance
  split
  · simp [*]
  · next hfind =>
    simp only [hfind, reduceCtorEq, iff_false]
    split <;> exact Option.some_ne_none _

theorem advance_eq_some_iff : advance name value c = some d ↔ Replaces name value c d := by
  constructor
  · intro h
    unfold advance at h
    split at h
    · cases h
    · next before after hfind =>
      split at h
      · next hgroup =>
        cases h
        exact .plain hfind hgroup
      · next hgroup =>
        cases h
        exact .unwrapped hfind (group?_eq_some_iff.mp hgroup) rfl
      · next hgroup =>
        cases h
        exact .removed hfind (group?_eq_some_iff.mp hgroup) rfl
  · intro h
    cases h with
    | plain hfind hgroup => simp only [advance, hfind, hgroup]
    | unwrapped hfind hgroup hvalue =>
      subst hvalue
      simp only [advance, hfind, group?_eq_some_iff.mpr hgroup]
    | removed hfind hgroup hvalue =>
      subst hvalue
      simp only [advance, hfind, group?_eq_some_iff.mpr hgroup]

/-- A part of a text, and what takes its place. -/
inductive Replaced (name : List Char) (value : Option (List Char)) :
    List Char → List Char → Prop where
  | occurrence : Replaced name value name (value.getD name)
  | group (lead tail : List Char) :
    Replaced name value ('(' :: (lead ++ name ++ tail) ++ [')'])
      (value.elim [] fun v => lead ++ v ++ tail)

/-- A replacement changes a part of the text: an occurrence, or its group. -/
theorem Replaces.exists_text_eq (h : Replaces name value c d) :
    ∃ l m m' r, c.text = l ++ m ++ r ∧ d.text = l ++ m' ++ r ∧ Replaced name value m m' := by
  have htext : ∀ {before after}, Text.find? name c.before c.after = some (before, after) →
      c.text = before.reverse ++ name ++ after := fun hfind => Text.find?_eq_some hfind
  cases h with
  | @plain before after hfind _ =>
    exact ⟨before.reverse, _, _, after, htext hfind, by simp [Cursor.text], .occurrence⟩
  | @unwrapped before after v g hfind hgroup hvalue =>
    refine ⟨g.outside.reverse, _, _, g.rest, ?_, ?_, .group g.lead.reverse g.tail⟩
    · rw [htext hfind, hgroup.before_eq, hgroup.after_eq]
      simp
    · rw [hvalue]
      simp [Cursor.text]
  | @removed before after g hfind hgroup hvalue =>
    refine ⟨g.outside.reverse, _, _, g.rest, ?_, ?_, .group g.lead.reverse g.tail⟩
    · rw [htext hfind, hgroup.before_eq, hgroup.after_eq]
      simp
    · rw [hvalue]
      simp [Cursor.text]

/-- What comes into the text comes with a value. -/
theorem Replaced.notMem {m m' : List Char} {x : Char} (h : Replaced name value m m')
    (hvalue : ∀ v, value = some v → x ∉ v) (hx : x ∉ m) : x ∉ m' := by
  cases h with
  | occurrence =>
    cases value with
    | none => exact hx
    | some v => exact hvalue v rfl
  | group lead tail =>
    cases value with
    | none => exact List.not_mem_nil
    | some v =>
      have := hvalue v rfl
      simp_all

theorem Group.Encloses.mem_before (h : g.Encloses before name after) {x : Char}
    (hx : x ∈ g.lead ++ g.outside) : x ∈ before := by
  rw [h.before_eq]
  rcases List.mem_append.mp hx with hx | hx
  · exact List.mem_append_left _ hx
  · exact List.mem_append_right _ (List.mem_cons_of_mem _ hx)

theorem Group.Encloses.mem_after (h : g.Encloses before name after) {x : Char} (hx : x ∈ g.tail) :
    x ∈ after :=
  h.after_eq ▸ List.mem_append_left _ hx

/-- A replacement uses up the text to the end of an occurrence, or of its group. What stands before
the cursor is of that text or of the value. -/
theorem Replaces.exists_after_eq (h : Replaces name value c d) :
    ∃ gap between, c.after = gap ++ name ++ between ++ d.after ∧
      ∀ x ∈ d.before, x ∈ c.before ∨ x ∈ gap ++ name ++ between ∨ ∃ v, value = some v ∧ x ∈ v := by
  cases h with
  | plain hfind _ =>
    obtain ⟨gap, rfl, hafter⟩ := Text.exists_of_find? hfind
    refine ⟨gap, [], by rw [hafter, List.append_nil], fun x hx => ?_⟩
    rcases List.mem_append.mp hx with hx | hx
    · cases value with
      | none =>
        have hx : x ∈ name := List.mem_reverse.mp hx
        exact .inr (.inl (by simp [hx]))
      | some v => exact .inr (.inr ⟨v, rfl, List.mem_reverse.mp hx⟩)
    · simp only [List.mem_append, List.mem_reverse] at hx ⊢
      tauto
  | @unwrapped before after v g hfind hgroup hvalue =>
    obtain ⟨gap, hbefore, hafter⟩ := Text.exists_of_find? hfind
    refine ⟨gap, g.tail ++ [')'], by rw [hafter, hgroup.after_eq]; simp, fun x hx => ?_⟩
    have hsides : x ∈ g.lead ++ g.outside → x ∈ gap ∨ x ∈ c.before := fun hx => by
      simpa [hbefore] using hgroup.mem_before hx
    simp only [List.mem_append, List.mem_reverse] at hx hsides ⊢
    rcases hx with hx | hx | hx
    · exact .inr (.inl (.inr (.inl hx)))
    · exact .inr (.inr ⟨v, hvalue, hx⟩)
    · rcases hsides hx with hx | hx
      · exact .inr (.inl (.inl (.inl hx)))
      · exact .inl hx
  | @removed before after g hfind hgroup _ =>
    obtain ⟨gap, hbefore, hafter⟩ := Text.exists_of_find? hfind
    refine ⟨gap, g.tail ++ [')'], by rw [hafter, hgroup.after_eq]; simp, fun x hx => ?_⟩
    have hside : x ∈ gap ∨ x ∈ c.before := by
      simpa [hbefore] using hgroup.mem_before (List.mem_append_right _ hx)
    simp only [List.mem_append]
    tauto

theorem Replaces.suffix (h : Replaces name value c d) : d.after <:+ c.after := by
  obtain ⟨gap, between, hafter, -⟩ := h.exists_after_eq
  exact ⟨gap ++ name ++ between, hafter.symm⟩

variable (hname : name ≠ [])

theorem substitute_of_none (h : advance name value c = none) :
    substitute name hname value c = c.text := by
  rw [substitute]
  split
  · rfl
  · next h' => rw [h] at h'; cases h'

theorem substitute_of_some (h : advance name value c = some d) :
    substitute name hname value c = substitute name hname value d := by
  rw [substitute]
  split
  · next h' => rw [h] at h'; cases h'
  · next h' => rw [h] at h'; cases h'; rfl

theorem substitute_plain (h : group? before name after = none) :
    substitute name hname value ⟨before, name ++ after⟩ =
      substitute name hname value ⟨(value.getD name).reverse ++ before, after⟩ :=
  substitute_of_some hname
    (advance_eq_some_iff.mpr (.plain (Text.find?_append hname before after) h))

theorem substitute_unwrapped {v : List Char} (h : g.Encloses before name after) :
    substitute name hname (some v) ⟨before, name ++ after⟩ =
      substitute name hname (some v)
        ⟨g.tail.reverse ++ (v.reverse ++ (g.lead ++ g.outside)), g.rest⟩ :=
  substitute_of_some hname
    (advance_eq_some_iff.mpr (.unwrapped (Text.find?_append hname before after) h rfl))

theorem substitute_removed (h : g.Encloses before name after) :
    substitute name hname none ⟨before, name ++ after⟩ =
      substitute name hname none ⟨g.outside, g.rest⟩ :=
  substitute_of_some hname
    (advance_eq_some_iff.mpr (.removed (Text.find?_append hname before after) h rfl))

/-- The cursor passes over a character where the name does not begin. -/
theorem substitute_cons_of_not_prefix {x : Char} (hx : ¬ name <+: x :: after) :
    substitute name hname value ⟨before, x :: after⟩ =
      substitute name hname value ⟨x :: before, after⟩ := by
  have hadvance : advance name value ⟨before, x :: after⟩ =
      advance name value ⟨x :: before, after⟩ := by
    simp only [advance, Text.find?_cons_of_not_leading hx]
  cases h : advance name value ⟨x :: before, after⟩ with
  | none =>
    rw [substitute_of_none hname h, substitute_of_none hname (hadvance.trans h)]
    simp [Cursor.text]
  | some d => rw [substitute_of_some hname h, substitute_of_some hname (hadvance.trans h)]

/-- In particular one that the name does not have. -/
theorem substitute_cons {x : Char} (hx : x ∉ name) :
    substitute name hname value ⟨before, x :: after⟩ =
      substitute name hname value ⟨x :: before, after⟩ := by
  refine substitute_cons_of_not_prefix hname fun hprefix => hx ?_
  obtain ⟨y, ys, rfl⟩ := List.exists_cons_of_ne_nil hname
  exact (List.cons_prefix_cons.mp hprefix).1 ▸ List.mem_cons_self

theorem substitute_nil : substitute name hname value ⟨before, []⟩ = before.reverse := by
  have hnone : advance name value ⟨before, []⟩ = none :=
    advance_eq_none_iff.mpr (by simp [Text.find?, hname])
  rw [substitute_of_none hname hnone, Cursor.text, List.append_nil]

/-- What every replacement keeps, the cursor has behind the last occurrence. -/
theorem exists_substitute_eq {P : Cursor → Prop}
    (hstep : ∀ c d, P c → Replaces name value c d → P d) (hc : P c) :
    ∃ d, P d ∧ substitute name hname value c = d.text := by
  induction c using substitute.induct name hname value with
  | case1 c h => exact ⟨c, hc, substitute_of_none hname h⟩
  | case2 c d h ih =>
    rw [substitute_of_some hname h]
    exact ih (hstep c d hc (advance_eq_some_iff.mp h))

/-- What every replacement keeps of the text, the result has. -/
theorem invariant_substitute {P : List Char → Prop}
    (hstep : ∀ c d, P c.text → Replaces name value c d → P d.text) (hc : P c.text) :
    P (substitute name hname value c) := by
  obtain ⟨d, hd, hsubstitute⟩ := exists_substitute_eq hname (P := fun c => P c.text) hstep hc
  exact hsubstitute ▸ hd

/-- A template that is not the name of the only variable becomes a text. -/
theorem interpolate_single {template : String} {v : Variable} (hname : v.name.toList ≠ [])
    (hne : template ≠ v.name) :
    interpolate template [v] = .text (String.ofList (substitute v.name.toList hname
      (v.value.map fun t => (rendered t).toList) ⟨[], template.toList⟩)) := by
  rw [interpolate, fill, dif_neg hname, if_neg (mt String.toList_inj.mp hne), fill]

/-- A template that is the name of a variable stands for the value of the variable. -/
theorem interpolate_name {name : String} (h : name ≠ "") (value : Tree) (vars : List Variable) :
    interpolate name (⟨name, some value⟩ :: vars) = value := by
  have hname : ¬ name.toList = [] := fun hn => h (String.toList_eq_nil_iff.mp hn)
  rw [interpolate, fill, dif_neg hname, if_pos rfl, Option.getD_some]

/-- What is filled into a template is a text, or the value of a variable. -/
theorem fill_induct {P : Tree → Prop} (text : ∀ s, P (.text s)) {vars : List Variable}
    (value : ∀ v ∈ vars, ∀ t, v.value = some t → P t) (cs : List Char) : P (fill cs vars) := by
  induction vars generalizing cs with
  | nil => exact text _
  | cons v vars ih =>
    have hrest := ih fun w hw => value w (List.mem_cons_of_mem _ hw)
    rw [fill]
    split
    · exact hrest _
    · split
      · cases hv : v.value with
        | none => exact text _
        | some t => exact value v List.mem_cons_self t hv
      · exact hrest _

end EventPipeline.Template
