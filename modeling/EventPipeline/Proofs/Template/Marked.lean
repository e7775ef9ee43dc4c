import EventPipeline.Proofs.Template.Steps

/-!
Values are text, not template. A *mark* is a character that a template does not have: filling in
the value of a variable is filling in a mark and then putting the value in the place of the marks
(`Template.interpolate_marked`), unless the value brings a bracket, or a backslash before one, to a
later occurrence of the name.
-/

namespace EventPipeline.Template

open Text (find? exists_of_find? find?_eq_map)

/-- A text with a value in the place of a mark. -/
def expand (mark : Char) (value text : List Char) : List Char :=
  text.flatMap fun x => if x = mark then value else [x]

variable {mark : Char} {value text : List Char}

@[simp] theorem expand_nil : expand mark value [] = [] := rfl

@[simp] theorem expand_cons (x : Char) :
    expand mark value (x :: text) = (if x = mark then value else [x]) ++ expand mark value text :=
  rfl

@[simp] theorem expand_append (l r : List Char) :
    expand mark value (l ++ r) = expand mark value l ++ expand mark value r :=
  List.flatMap_append

theorem expand_of_notMem (h : mark ∉ text) : expand mark value text = text := by
  induction text with
  | nil => rfl
  | cons x xs ih =>
    obtain ⟨hx, hxs⟩ := not_or.mp (mt List.mem_cons.mpr h)
    rw [expand_cons, if_neg (Ne.symm hx), ih hxs, List.singleton_append]

theorem reverse_expand :
    (expand mark value text).reverse = expand mark value.reverse text.reverse := by
  induction text with
  | nil => rfl
  | cons x xs ih =>
    rw [expand_cons, List.reverse_append, ih, List.reverse_cons, expand_append]
    split <;> simp_all

theorem of_mem_expand {x : Char} (h : x ∈ expand mark value text) : x ∈ value ∨ x ∈ text := by
  obtain ⟨y, hy, hx⟩ := List.mem_flatMap.mp h
  split at hx
  · exact .inl hx
  · exact .inr (List.mem_singleton.mp hx ▸ hy)

/-- A value that does not begin with a backslash does not disable a bracket, unless there is
nothing of it and a backslash stands behind. -/
theorem head?_expand (hmark : mark ≠ '\\') (hhead : value.head? ≠ some '\\')
    (hempty : value = [] → '\\' ∉ text) :
    (expand mark value text).head? = some '\\' ↔ text.head? = some '\\' := by
  cases text with
  | nil => rfl
  | cons x xs =>
    by_cases hx : x = mark
    · subst hx
      have hx : (x :: xs).head? ≠ some '\\' := fun h => hmark (Option.some.inj h)
      refine iff_of_false (fun h => ?_) hx
      cases value with
      | nil =>
        rcases of_mem_expand (List.mem_of_mem_head? h) with h | h
        · cases h
        · exact hempty rfl h
      | cons y ys => exact hhead (by simpa using h)
    · simp [hx]

/-- The group of an occurrence, with a value in the place of the marks before it. -/
def Group.expand (mark : Char) (value : List Char) (g : Group) : Group :=
  { g with
    outside := Template.expand mark value g.outside
    lead := Template.expand mark value g.lead }

/-- The place in a text, with a value in the place of the marks before it. -/
def Cursor.expand (mark : Char) (value : List Char) (c : Cursor) : Cursor :=
  ⟨Template.expand mark value.reverse c.before, c.after⟩

variable {before name after : List Char} {c d : Cursor}

theorem Cursor.text_expand (h : mark ∉ c.after) :
    (c.expand mark value).text = Template.expand mark value c.text := by
  simp only [Cursor.text, Cursor.expand, reverse_expand, List.reverse_reverse, expand_append,
    expand_of_notMem h]

/-- Values that bring no opening bracket to what stands behind them, and disable none. -/
structure Inert (value text : List Char) : Prop where
  bracket : '(' ∉ value
  backslash : value.getLast? ≠ some '\\'
  empty : value = [] → '\\' ∉ text

/-- An inert value changes nothing about the group of an occurrence behind it. -/
theorem group?_expand (hmark : mark ≠ '(' ∧ mark ≠ '\\') (h : Inert value before) :
    group? (expand mark value.reverse before) name after =
      (group? before name after).map (Group.expand mark value.reverse) := by
  have hopen : ∀ {l : List Char}, '(' ∉ l → '(' ∉ expand mark value.reverse l := fun hl hm =>
    (of_mem_expand hm).elim (mt List.mem_reverse.mp h.bracket) hl
  have hcut : ∀ l r : List Char, expand mark value.reverse (l ++ '(' :: r) =
      expand mark value.reverse l ++ '(' :: expand mark value.reverse r := fun l r => by
    simp [Ne.symm hmark.1]
  have hlive : ∀ {l r : List Char}, before = l ++ '(' :: r →
      ((expand mark value.reverse r).head? = some '\\' ↔ r.head? = some '\\') := fun hbefore =>
    head?_expand hmark.2 (List.head?_reverse ▸ h.backslash) fun hnil hr =>
      h.empty (List.reverse_eq_nil_iff.mp hnil) (by simp [hbefore, hr])
  cases hg : group? before name after with
  | some g =>
    have hg := group?_eq_some_iff.mp hg
    refine group?_eq_some_iff.mpr { hg with
      before_eq := ?_, lead := hopen hg.lead, opens := mt (hlive hg.before_eq).mp hg.opens }
    exact (congrArg _ hg.before_eq).trans (hcut _ _)
  | none =>
    refine Option.eq_none_iff_forall_ne_some.mpr fun g' hg' => ?_
    have hg' := group?_eq_some_iff.mp hg'
    have hmem : '(' ∈ before := by
      by_contra hmem
      exact hopen hmem (hg'.before_eq ▸ by simp)
    obtain ⟨lead, outside, hbefore, hlead⟩ := List.eq_append_cons_of_mem hmem
    have heq := hg'.before_eq
    rw [hbefore, hcut] at heq
    obtain ⟨-, houtside⟩ := Text.eq_and_eq_of_append_cons (hopen hlead) hg'.lead heq
    have henclosed : Group.Encloses ⟨outside, lead, g'.tail, g'.rest⟩ before name after :=
      { hg' with
        before_eq := hbefore
        lead := hlead
        opens := mt (hlive hbefore).mpr (houtside ▸ hg'.opens) }
    rw [group?_eq_some_iff.mpr henclosed] at hg
    cases hg

theorem find?_expand (value : List Char) {pre post : List Char} (hmark : mark ∉ text)
    (h : find? name before text = some (pre, post)) :
    find? name (expand mark value before) text = some (expand mark value pre, post) := by
  obtain ⟨gap, rfl, htext⟩ := exists_of_find? h
  have hgap : mark ∉ gap.reverse := fun hm => hmark (by simp [htext, List.mem_reverse.mp hm])
  rw [find?_eq_map, Option.map_eq_some_iff] at h ⊢
  obtain ⟨⟨gap', post'⟩, hfind, hpair⟩ := h
  obtain ⟨hgap', rfl⟩ := Prod.mk.inj hpair
  obtain rfl := List.append_cancel_right hgap'
  exact ⟨_, hfind, by rw [expand_append, expand_of_notMem hgap]⟩

/-- At the cursor, an occurrence is in the same group with the value as with the mark. -/
def GroupedAlike (mark : Char) (value name : List Char) (c : Cursor) : Prop :=
  ∀ before after, find? name c.before c.after = some (before, after) →
    group? (expand mark value.reverse before) name after =
      (group? before name after).map (Group.expand mark value.reverse)

/-- One replacement by the value is one by the mark, with the value in the place of the marks. -/
theorem Replaces.expand (h : Replaces name (some [mark]) c d) (hmark : mark ∉ c.after)
    (hgroup : GroupedAlike mark value name c) :
    Replaces name (some value) (c.expand mark value) (d.expand mark value) := by
  cases h with
  | plain hfind hnone =>
    have hnone := (hgroup _ _ hfind).trans (congrArg _ hnone)
    have hfind := find?_expand value.reverse hmark hfind
    have h : Replaces name (some value) (c.expand mark value) _ := .plain hfind hnone
    simpa [Cursor.expand] using h
  | @unwrapped before after v g hfind hencloses hv =>
    obtain rfl := Option.some.inj hv
    have htail : mark ∉ g.tail.reverse := by
      obtain ⟨gap, -, hafter⟩ := exists_of_find? hfind
      rw [hafter, hencloses.after_eq] at hmark
      simp_all
    have hsome := (hgroup _ _ hfind).trans (congrArg _ (group?_eq_some_iff.mpr hencloses))
    have hfind := find?_expand value.reverse hmark hfind
    have h : Replaces name (some value) (c.expand mark value) _ :=
      .unwrapped hfind (group?_eq_some_iff.mp hsome) rfl
    simpa [Cursor.expand, Group.expand, expand_of_notMem htail] using h
  | removed _ _ hv => cases hv

/-- If the groups stay alike, so does all that comes of a cursor. -/
theorem substitute_expand (hname : name ≠ []) {P : Cursor → Prop}
    (hkeep : ∀ c d, P c → Replaces name (some [mark]) c d → P d)
    (hmark : ∀ c, P c → mark ∉ c.after) (hgroup : ∀ c, P c → GroupedAlike mark value name c)
    (hc : P c) :
    substitute name hname (some value) (c.expand mark value) =
      expand mark value (substitute name hname (some [mark]) c) := by
  induction c using substitute.induct name hname (some [mark]) with
  | case1 c h =>
    have hnone := Text.find?_eq_none_iff.mp (advance_eq_none_iff.mp h)
    have hnone' : advance name (some value) (c.expand mark value) = none :=
      advance_eq_none_iff.mpr (Text.find?_eq_none_iff.mpr hnone)
    rw [substitute_of_none hname h, substitute_of_none hname hnone', Cursor.text_expand (hmark c hc)]
  | case2 c d h ih =>
    have hstep := advance_eq_some_iff.mp h
    rw [substitute_of_some hname h, ← ih (hkeep c d hc hstep)]
    exact substitute_of_some hname
      (advance_eq_some_iff.mpr (hstep.expand (hmark c hc) (hgroup c hc)))

end EventPipeline.Template
