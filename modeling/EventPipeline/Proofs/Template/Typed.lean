import EventPipeline.Proofs.Template.Steps

/-!
When a template stands for a value that is no text. That is decided anew at the turn of each
variable, on the text that the earlier ones have left (`Template.interpolate_isText_iff`). A
character that no name has, and that stays, keeps the text apart from all names.
-/

namespace EventPipeline.Template

/-- The text that variables leave behind, unless the text at the turn of one of them is its name. -/
def filled? (text : List Char) : List Variable → Option (List Char)
  | [] => some text
  | v :: vs =>
    if hname : v.name.toList = [] then filled? text vs
    else if text = v.name.toList then none
    else
      let value := v.value.map fun t => (rendered t).toList
      filled? (substitute v.name.toList hname value ⟨[], text⟩) vs

/-- The element at some place of a list is the first one, or one of the others. -/
theorem forall_append_cons_iff {α : Type} {P : List α → α → Prop} {x : α} {xs : List α} :
    (∀ earlier y later, x :: xs = earlier ++ y :: later → P earlier y) ↔
      P [] x ∧ ∀ earlier y later, xs = earlier ++ y :: later → P (x :: earlier) y := by
  constructor
  · intro h
    exact ⟨h [] x xs rfl, fun earlier y later hxs => h (x :: earlier) y later (by rw [hxs]; rfl)⟩
  · rintro ⟨hx, hxs⟩ (_ | ⟨z, earlier⟩) y later h
    · obtain ⟨rfl, rfl⟩ := List.cons.inj h
      exact hx
    · obtain ⟨rfl, rfl⟩ := List.cons.inj h
      exact hxs earlier y later rfl

theorem fill_isText_iff (text : List Char) (vars : List Variable) :
    (∃ s, fill text vars = .text s) ↔
      ∀ earlier v later, vars = earlier ++ v :: later → v.name ≠ "" →
        filled? text earlier = some v.name.toList → ∀ t, v.value = some t → ∃ s, t = .text s := by
  induction vars generalizing text with
  | nil => simp [fill]
  | cons v vs ih =>
    rw [forall_append_cons_iff]
    by_cases hname : v.name.toList = []
    · have hskip : ¬ v.name ≠ "" := not_not_intro (String.toList_eq_nil_iff.mp hname)
      simp only [fill, filled?, dif_pos hname, ih, hskip, IsEmpty.forall_iff, true_and]
    have hne : v.name ≠ "" := mt String.toList_eq_nil_iff.mpr hname
    by_cases htext : text = v.name.toList
    · -- the variables behind this one have no turn
      have hlater : ∀ earlier, filled? text (v :: earlier) = none := fun _ => by
        rw [filled?, dif_neg hname, if_pos htext]
      rw [fill, dif_neg hname, if_pos htext]
      simp only [hlater, reduceCtorEq, IsEmpty.forall_iff, implies_true, and_true]
      cases hvalue : v.value with
      | none => simp
      | some t => simp [filled?, hne, htext]
    · have hfirst : filled? text [] ≠ some v.name.toList := mt Option.some.inj htext
      simp only [fill, dif_neg hname, if_neg htext, ih, hfirst, IsEmpty.forall_iff, implies_true,
        true_and]
      simp only [filled?, dif_neg hname, if_neg htext]

/-- A character that a text keeps while variables are filled in: the first or the last one, if it
is no bracket, one that stands before all brackets that open a group or behind all that close one,
or any that is no bracket if all variables are defined. -/
inductive Stays (x : Char) (vars : List Variable) (text : List Char) : Prop where
  | first : x ≠ '(' → text.head? = some x → Stays x vars text
  | last : x ≠ ')' → text.reverse.head? = some x → Stays x vars text
  | before : x ∈ text.takeWhile (· != '(') →
    (∀ v ∈ vars, ∀ t, v.value = some t → '(' ∉ (rendered t).toList) → Stays x vars text
  | behind : x ∈ text.reverse.takeWhile (· != ')') →
    (∀ v ∈ vars, ∀ t, v.value = some t → ')' ∉ (rendered t).toList) → Stays x vars text
  | defined : x ≠ '(' → x ≠ ')' → x ∈ text → (∀ v ∈ vars, v.value.isSome) → Stays x vars text

section

variable {x b : Char} {l m m' r : List Char}

theorem mem_takeWhile_append_iff :
    x ∈ (l ++ r).takeWhile (· != b) ↔
      x ∈ l.takeWhile (· != b) ∨ (b ∉ l ∧ x ∈ r.takeWhile (· != b)) := by
  induction l with
  | nil => simp
  | cons y l ih =>
    by_cases hy : y = b
    · simp [hy]
    · simp [hy, Ne.symm hy, ih, or_assoc]

/-- What stands before a bracket still does when a part of the text is replaced that it is not
in, and the replacement brings no such bracket. -/
theorem mem_takeWhile_replace (hx : x ∉ m.takeWhile (· != b)) (hm : b ∉ m → b ∉ m')
    (h : x ∈ (l ++ m ++ r).takeWhile (· != b)) : x ∈ (l ++ m' ++ r).takeWhile (· != b) := by
  simp only [List.append_assoc, mem_takeWhile_append_iff] at h ⊢
  tauto

/-- Whatever the replacement brings, the first character stays if it is not in that part. -/
theorem head?_replace (hm : m ≠ []) (hb : x ≠ b) (hx : x ∉ m.takeWhile (· != b))
    (h : (l ++ m ++ r).head? = some x) : (l ++ m' ++ r).head? = some x := by
  cases l with
  | cons y l => exact h
  | nil =>
    cases m with
    | nil => exact absurd rfl hm
    | cons y m =>
      obtain rfl : y = x := Option.some.inj h
      exact absurd (by simp [hb]) hx

end

variable {name : List Char} {value : Option (List Char)} {c d : Cursor} {x : Char}

namespace Replaced

variable {m m' : List Char} (h : Replaced name value m m')

include h

theorem ne_nil (hname : name ≠ []) : m ≠ [] := by
  cases h with
  | occurrence => exact hname
  | group => simp

theorem mem_of_mem_takeWhile (hx : x ∈ m.takeWhile (· != '(')) : x ∈ name := by
  cases h with
  | occurrence => exact (List.takeWhile_prefix _).subset hx
  | group => simp at hx

theorem mem_of_mem_takeWhile_reverse (hx : x ∈ m.reverse.takeWhile (· != ')')) : x ∈ name := by
  cases h with
  | occurrence => exact List.mem_reverse.mp ((List.takeWhile_prefix _).subset hx)
  | group => simp at hx

/-- When the variable is defined, only the name and the brackets get lost. -/
theorem mem_of_isSome (hvalue : value.isSome) (hopen : x ≠ '(') (hclose : x ≠ ')') (hx : x ∈ m) :
    x ∈ name ∨ x ∈ m' := by
  obtain ⟨v, rfl⟩ := Option.isSome_iff_exists.mp hvalue
  cases h with
  | occurrence => exact .inl hx
  | group lead tail =>
    simp only [List.cons_append, List.mem_cons, List.mem_append, hopen, hclose, List.not_mem_nil,
      false_or, or_false] at hx
    simp only [Option.elim_some, List.mem_append]
    tauto

end Replaced

variable {vars : List Variable} {v : Variable} {text : List Char}

namespace Stays

theorem mem (h : Stays x vars text) : x ∈ text := by
  cases h with
  | first _ h => exact List.mem_of_mem_head? h
  | last _ h => exact List.mem_reverse.mp (List.mem_of_mem_head? h)
  | before h _ => exact (List.takeWhile_prefix _).subset h
  | behind h _ => exact List.mem_reverse.mp ((List.takeWhile_prefix _).subset h)
  | defined _ _ h _ => exact h

theorem of_cons (h : Stays x (v :: vars) text) : Stays x vars text := by
  cases h with
  | first hx h => exact .first hx h
  | last hx h => exact .last hx h
  | before h hvalues => exact .before h fun w hw => hvalues w (List.mem_cons_of_mem v hw)
  | behind h hvalues => exact .behind h fun w hw => hvalues w (List.mem_cons_of_mem v hw)
  | defined hopen hclose h hvalues =>
    exact .defined hopen hclose h fun w hw => hvalues w (List.mem_cons_of_mem v hw)

/-- A character that stays, and that the name does not have, still does when an occurrence of the
name is replaced. -/
theorem replace (hv : v ∈ vars) (hname : v.name.toList ≠ []) (hx : x ∉ v.name.toList)
    (hstep : Replaces v.name.toList (v.value.map fun t => (rendered t).toList) c d)
    (h : Stays x vars c.text) : Stays x vars d.text := by
  obtain ⟨l, m, m', r, hc, hd, hpart⟩ := hstep.exists_text_eq
  have hreverse : ∀ n, (l ++ n ++ r).reverse = r.reverse ++ n.reverse ++ l.reverse := by simp
  have hopen := mt hpart.mem_of_mem_takeWhile hx
  have hclose := mt hpart.mem_of_mem_takeWhile_reverse hx
  have hput : ∀ b, (∀ w ∈ vars, ∀ t, w.value = some t → b ∉ (rendered t).toList) →
      b ∉ m → b ∉ m' := by
    refine fun b hvalues => hpart.notMem fun s hs => ?_
    obtain ⟨t, ht, rfl⟩ := Option.map_eq_some_iff.mp hs
    exact hvalues v hv t ht
  rw [hc] at h
  rw [hd]
  cases h with
  | first hne h => exact .first hne (head?_replace (hpart.ne_nil hname) hne hopen h)
  | last hne h =>
    rw [hreverse] at h
    refine .last hne ?_
    rw [hreverse]
    exact head?_replace (mt List.reverse_eq_nil_iff.mp (hpart.ne_nil hname)) hne hclose h
  | before h hvalues => exact .before (mem_takeWhile_replace hopen (hput _ hvalues) h) hvalues
  | behind h hvalues =>
    rw [hreverse] at h
    refine .behind ?_ hvalues
    rw [hreverse]
    exact mem_takeWhile_replace hclose (by simpa using hput _ hvalues) h
  | defined hneOpen hneClose h hvalues =>
    have hkept : x ∈ m → x ∈ m' := fun hm =>
      (hpart.mem_of_isSome (by simpa using hvalues v hv) hneOpen hneClose hm).resolve_left hx
    refine .defined hneOpen hneClose ?_ hvalues
    simp only [List.mem_append] at h ⊢
    exact h.imp_left (Or.imp_right hkept)

/-- A text with a character that stays, and that no name has, is none of the names. -/
theorem fill (hx : ∀ v ∈ vars, x ∉ v.name.toList) (h : Stays x vars text) :
    ∃ s, Template.fill text vars = .text s := by
  induction vars generalizing text with
  | nil => exact ⟨_, rfl⟩
  | cons v vs ih =>
    have hvs : ∀ w ∈ vs, x ∉ w.name.toList := fun w hw => hx w (List.mem_cons_of_mem v hw)
    have hv : x ∉ v.name.toList := hx v List.mem_cons_self
    rw [Template.fill]
    split
    · exact ih hvs h.of_cons
    · next hname =>
      rw [if_neg fun (htext : text = v.name.toList) => hv (htext ▸ h.mem)]
      obtain ⟨d, hd, hsubstitute⟩ := exists_substitute_eq hname
        (P := fun c => Stays x (v :: vs) c.text) (c := ⟨[], text⟩)
        (fun c d hc hstep => hc.replace List.mem_cons_self hname hv hstep) h
      exact ih hvs (hsubstitute ▸ hd.of_cons)

end Stays

/--
A template stands for a text exactly if the name of no variable with another value is what the
earlier ones have left of it. So it does if a character that no name has stays in the template.
-/
theorem interpolate_isText_iff (template : String) (vars : List Variable) :
    ((∃ s, interpolate template vars = .text s) ↔
      ∀ earlier v later, vars = earlier ++ v :: later → v.name ≠ "" →
        filled? template.toList earlier = some v.name.toList →
        ∀ t, v.value = some t → ∃ s, t = .text s) ∧
    ∀ x : Char, (∀ v ∈ vars, x ∉ v.name.toList) → Stays x vars template.toList →
      ∃ s, interpolate template vars = .text s :=
  ⟨fill_isText_iff _ _, fun _ hx h => h.fill hx⟩

/-- A template that begins with a character of no name. -/
theorem interpolate_isText_level :
    interpolate "level $n(-$unit)"
      [⟨"$unit", none⟩, ⟨"$n", some (.number (.integer ⟨5, by decide, by decide⟩))⟩] =
        .text "level 5" := by
  obtain ⟨s, hs⟩ := (interpolate_isText_iff "level $n(-$unit)"
      [⟨"$unit", none⟩, ⟨"$n", some (.number (.integer ⟨5, by decide, by decide⟩))⟩]).2 'l'
    (by decide) (.first (by decide) rfl)
  obtain rfl : s = "level 5" := Tree.text.inj (hs.symm.trans (by decide +kernel))
  exact hs

/-- Where a group is left out, the name of the next variable may be all that remains. -/
theorem interpolate_isText_remainder :
    let n : Variable := ⟨"$n", some (.number (.integer ⟨5, by decide, by decide⟩))⟩
    (∀ v ∈ [⟨"$unit", none⟩, n], "$n(-$unit)" ≠ v.name) ∧
    interpolate "$n(-$unit)" [⟨"$unit", none⟩, n] =
      .number (.integer ⟨5, by decide, by decide⟩) ∧
    ¬ ∃ s, interpolate "$n(-$unit)" [⟨"$unit", none⟩, n] = .text s := by
  intro n
  have hnumber : interpolate "$n(-$unit)" [⟨"$unit", none⟩, n] =
      .number (.integer ⟨5, by decide, by decide⟩) := by decide +kernel
  refine ⟨by decide, hnumber, ?_⟩
  rintro ⟨s, hs⟩
  cases hnumber.symm.trans hs

end EventPipeline.Template
