import EventPipeline.Proofs.Template.Brackets

/-!
The meaning of templates, part by part. Filling in the variables gives every part its meaning, if
no name outside of groups has its turn while there are brackets of other groups on both of its
sides (`Straight`). The templates that have their meaning whatever the variables are, and in every
order of them, are those in which no name stands between two groups, the first of which is of
another one (`Template.interpolate_parts`).
-/

namespace EventPipeline.Template

/-- A part between two others cuts a template in two. -/
theorem between_iff {parts : List Part} {p q s : Part} :
    [p, q, s].Sublist parts ↔ ∃ l r, parts = l ++ q :: r ∧ p ∈ l ∧ s ∈ r := by
  constructor
  · intro hsub
    obtain ⟨l, rest, rfl, hp, hsub⟩ := List.cons_sublist_iff.mp hsub
    obtain ⟨between, r, rfl, hq, hs⟩ := List.cons_sublist_iff.mp hsub
    obtain ⟨u, v, rfl⟩ := List.append_of_mem hq
    exact ⟨l ++ u, v ++ r, by simp, List.mem_append_left u hp,
      List.mem_append_right v (List.singleton_sublist.mp hs)⟩
  · rintro ⟨l, r, rfl, hp, hs⟩
    exact (List.singleton_sublist.mpr hp).append ((List.singleton_sublist.mpr hs).cons_cons q)

/-- No name that stands outside of groups has its turn while there are brackets of other groups on
both of its sides. -/
def Straight (order : List String) (parts : List Part) : Prop :=
  ∀ earlier n later, order = earlier ++ n :: later → ∀ lead m tail lead' k tail',
    [.group lead m tail, .name n, .group lead' k tail'].Sublist parts →
      m = n ∨ m ∈ earlier ∨ k ∈ earlier

variable {names order done : List String} {parts : List Part}
  {text? : String → Option (List Char)} {n : String} {before after : List Char}

/-- When a name outside of groups has its turn, either all groups before it have had theirs, or are
its own, or all groups behind it have. -/
theorem Straight.sides {earlier later : List String} (h : Straight order parts)
    (horder : order = earlier ++ n :: later) {l r : List Part}
    (hparts : parts = l ++ .name n :: r) :
    (∀ lead m tail, .group lead m tail ∈ l → m ∈ n :: earlier) ∨
      ∀ lead k tail, .group lead k tail ∈ r → k ∈ earlier := by
  rw [or_iff_not_imp_left]
  intro hopen lead' k tail' hk
  push Not at hopen
  obtain ⟨lead, m, tail, hm, hnotMem⟩ := hopen
  have := h earlier n later horder lead m tail lead' k tail'
    (between_iff.mpr ⟨l, r, hparts, hm, hk⟩)
  simp only [List.mem_cons, not_or] at hnotMem
  tauto

namespace Readable

variable (h : Readable names parts) (htext : ∀ m ∈ names, ∀ text ∈ text? m, IsLiteral text)

include h htext

/-- The turn of a variable gives its parts their meaning, if those that are outside of groups have
no brackets of other groups on both of their sides. -/
theorem substitute_shown (hn : n ∈ names) (hdone : n ∉ done) {ps : List Part}
    (hps : ∀ p ∈ ps, p ∈ parts) (hbefore : '\\' ∉ before)
    (hstraight : ∀ l r, ps = l ++ .name n :: r →
      ('(' ∉ before ∧ ∀ lead m tail, .group lead m tail ∈ l → m ∈ n :: done) ∨
        ∀ lead k tail, .group lead k tail ∈ r → k ∈ done) :
    substitute n.toList (h.named n hn).ne_nil (text? n)
        ⟨before, ps.flatMap (Part.shown text? done)⟩ =
      before.reverse ++ ps.flatMap (Part.shown text? (n :: done)) := by
  induction ps generalizing before with
  | nil => rw [List.flatMap_nil, substitute_nil, List.flatMap_nil, List.append_nil]
  | cons p ps ih =>
    obtain ⟨hp, hps⟩ := List.forall_mem_cons.mp hps
    have hplain : p = .name n →
        group? before n.toList (ps.flatMap (Part.shown text? done)) = none := by
      intro hpn
      rcases hstraight [] ps (by rw [hpn]; rfl) with ⟨hopen, -⟩ | hlate
      · exact group?_of_notMem_before hopen
      · refine group?_of_notMem_after fun hclose => ?_
        obtain ⟨q, hq, hclose⟩ := List.mem_flatMap.mp hclose
        obtain ⟨-, lead, k, tail, rfl, hk⟩ := h.of_mem_shown htext (hps q hq) (by simp) hclose
        exact hk (hlate lead k tail hq)
    rw [List.flatMap_cons, h.substitute_append_part htext hn hdone hp hbefore hplain, ih hps]
    · simp
    · -- backslashes are nowhere, and brackets come only with groups that are still to have a turn
      simp only [List.mem_append, List.mem_reverse, not_or]
      exact ⟨fun hmem => (h.of_mem_shown htext hp (by simp) hmem).1 rfl, hbefore⟩
    · intro l r hps
      refine (hstraight (p :: l) r (by rw [hps]; rfl)).imp_left ?_
      rintro ⟨hopen, hdone⟩
      constructor
      · simp only [List.mem_append, List.mem_reverse, not_or]
        refine ⟨fun hmem => ?_, hopen⟩
        obtain ⟨-, lead, m, tail, rfl, hm⟩ := h.of_mem_shown htext hp (by simp) hmem
        exact hm (hdone lead m tail List.mem_cons_self)
      · exact fun lead m tail hm => hdone lead m tail (List.mem_cons_of_mem p hm)

end Readable

/-- Variables in the order of their turns. -/
def inOrder (value? : String → Option Tree) (order : List String) : List Variable :=
  order.map fun n => ⟨n, value? n⟩

/-- The texts of the variables that are defined. -/
def textOf? (value? : String → Option Tree) (n : String) : Option (List Char) :=
  (value? n).map fun t => (rendered t).toList

namespace Readable

variable (h : Readable names parts) {value? : String → Option Tree}
  (htext : ∀ m ∈ names, ∀ text ∈ textOf? value? m, IsLiteral text)

include h htext

/-- After the turns of some variables, those of the others give all parts their meaning. -/
theorem fill_shown (hperm : order.Perm names) (hstraight : Straight order parts)
    {earlier later : List String} (horder : order = earlier ++ later) :
    fill (parts.flatMap (Part.shown (textOf? value?) earlier)) (inOrder value? later) =
      .text (String.ofList (parts.flatMap (Part.meaning (textOf? value?)))) := by
  induction later generalizing earlier with
  | nil =>
    have hall : ∀ p ∈ parts, p.shown (textOf? value?) earlier = p.meaning (textOf? value?) :=
      fun p hp => if_pos fun m hm => by
        simpa [horder] using hperm.mem_iff.mpr (h.listed p hp m hm)
    rw [List.flatMap_congr hall]
    rfl
  | cons n later ih =>
    have hn : n ∈ names := hperm.mem_iff.mp (by simp [horder])
    have hdone : n ∉ earlier := by
      have hnodup := List.nodup_append.mp (horder ▸ hperm.nodup_iff.mpr h.nodup)
      exact fun hmem => hnodup.2.2 n hmem n List.mem_cons_self rfl
    have hturn := h.substitute_shown htext hn hdone (fun _ hp => hp)
      (List.not_mem_nil : '\\' ∉ ([] : List Char)) fun l r hparts =>
        (hstraight.sides horder hparts).imp_left fun hopen => ⟨List.not_mem_nil, hopen⟩
    have hshown : Part.shown (textOf? value?) (n :: earlier) =
        Part.shown (textOf? value?) (earlier ++ [n]) := by
      have hmem : ∀ m, m ∈ n :: earlier ↔ m ∈ earlier ++ [n] := fun m => by simp [or_comm]
      funext p
      simp only [Part.shown, hmem]
    have horder : order = (earlier ++ [n]) ++ later := by simp [horder]
    rw [inOrder, List.map_cons, fill, dif_neg (h.named n hn).ne_nil,
      if_neg (h.flatMap_shown_ne htext hn)]
    refine Eq.trans ?_ (ih horder)
    rw [← hshown]
    exact congrArg (fill · _) hturn

end Readable

namespace Readable

variable (h : Readable names parts)

include h

/-- The bracket stays while variables that are defined are filled in. -/
theorem fill_overcloses {value? : String → Option Tree} {later : List String} {text : List Char}
    (hlater : ∀ m ∈ later, m ∈ names ∧ ∃ v, textOf? value? m = some v ∧ IsLiteral v)
    (hover : Overcloses 0 text) :
    ∃ s : String, fill text (inOrder value? later) = .text s ∧ ')' ∈ s.toList := by
  induction later generalizing text with
  | nil => exact ⟨_, rfl, by simpa using hover.mem⟩
  | cons n later ih =>
    obtain ⟨⟨hn, v, hv, hliteral⟩, hlater⟩ := List.forall_mem_cons.mp hlater
    have hname := h.named n hn
    have hne : text ≠ n.toList := fun htext => hname.notMem (by simp) (htext ▸ hover.mem)
    have hnext := Overcloses.substitute (c := ⟨[], text⟩) hname.ne_nil
      ⟨hname.notMem (by simp), hname.notMem (by simp)⟩
      ⟨fun hx => hliteral _ hx (by simp), fun hx => hliteral _ hx (by simp)⟩ hover
    rw [inOrder, List.map_cons, fill, dif_neg hname.ne_nil, if_neg hne]
    have hturn := ih hlater hnext
    rw [← hv] at hturn
    exact hturn

/-- Without brackets in the values, there are none in the meaning. -/
theorem notMem_meaning (htext : ∀ m ∈ names, ∀ text ∈ text? m, IsLiteral text) :
    ')' ∉ parts.flatMap (Part.meaning text?) := by
  intro hmem
  obtain ⟨p, hp, hmem⟩ := List.mem_flatMap.mp hmem
  have hall : p.shown text? names = p.meaning text? := if_pos (h.listed p hp)
  obtain ⟨-, lead, m, tail, rfl, hm⟩ := h.of_mem_shown htext hp (by simp) (hall ▸ hmem)
  exact hm (h.listed _ hp m rfl)

end Readable

/-- No name outside of groups stands between a group of another name and one more group. -/
def Apart (parts : List Part) : Prop :=
  ∀ lead m tail n lead' k tail',
    [.group lead m tail, .name n, .group lead' k tail'].Sublist parts → m = n

/-- The variables, filled into a template in this order, give each of its parts its meaning. -/
def FilledByPart (value? : String → Option Tree) (order : List String) (parts : List Part) : Prop :=
  interpolate (String.ofList (parts.flatMap Part.chars)) (inOrder value? order) =
    .text (String.ofList (parts.flatMap (Part.meaning (textOf? value?))))

namespace Readable

variable {value? : String → Option Tree}

theorem flatMap_shown_nil : parts.flatMap (Part.shown text? []) = parts.flatMap Part.chars :=
  List.flatMap_congr fun p _ => by
    cases p <;> simp [Part.shown, Part.name?, Part.meaning, Part.chars]

variable (h : Readable names parts)

include h

theorem filledByPart_of_straight (hperm : order.Perm names)
    (htext : ∀ m ∈ names, ∀ text ∈ textOf? value? m, IsLiteral text)
    (hstraight : Straight order parts) : FilledByPart value? order parts := by
  rw [FilledByPart, interpolate, String.toList_ofList, ← flatMap_shown_nil]
  exact h.fill_shown htext hperm hstraight (List.nil_append order).symm

/-- A name between two groups spoils a template when it comes first and all values are empty. -/
theorem not_filledByPart {lead tail lead' tail' : List Char} {m k : String}
    (hsub : [.group lead m tail, .name n, .group lead' k tail'].Sublist parts) (hmn : m ≠ n) :
    ¬ FilledByPart (fun _ => some (.text "")) (n :: names.erase n) parts := by
  obtain ⟨l, r, rfl, hm, hk⟩ := between_iff.mp hsub
  have hn : n ∈ names := h.listed (.name n) (by simp) n rfl
  have htext : ∀ m ∈ names, ∀ text ∈ textOf? (fun _ => some (.text "")) m, IsLiteral text := by
    simp [textOf?, rendered, IsLiteral]
  have hturn := h.overcloses_of_between htext hn rfl (fun _ hp => hp)
    (List.not_mem_nil : '\\' ∉ ([] : List Char)) rfl (.inr ⟨lead, m, tail, hm, hmn⟩)
    ⟨lead', k, tail', hk⟩
  have hlater : ∀ m ∈ names.erase n, m ∈ names ∧
      ∃ v, textOf? (fun _ => some (.text "")) m = some v ∧ IsLiteral v :=
    fun m hm => ⟨List.mem_of_mem_erase hm, [], rfl, by simp [IsLiteral]⟩
  obtain ⟨s, hs, hclose⟩ := h.fill_overcloses hlater hturn
  intro hfilled
  rw [FilledByPart, interpolate, String.toList_ofList, ← flatMap_shown_nil, inOrder, List.map_cons,
    fill, dif_neg (h.named n hn).ne_nil, if_neg (h.flatMap_shown_ne htext hn)] at hfilled
  have htext' := Tree.text.inj (hs.symm.trans hfilled)
  rw [htext', String.toList_ofList] at hclose
  exact h.notMem_meaning htext hclose

end Readable

/--
Filling in the variables gives every part of a template its meaning, if no name outside of groups
has its turn while there are brackets of other groups on both of its sides. That is so for all
values, and in every order of the variables, exactly if no such name stands between a group of
another one and one more group.
-/
theorem interpolate_parts (h : Readable names parts) :
    (∀ (value? : String → Option Tree) (order : List String), order.Perm names →
      (∀ m ∈ names, ∀ text ∈ textOf? value? m, IsLiteral text) →
        Straight order parts → FilledByPart value? order parts) ∧
    ((∀ (value? : String → Option Tree) (order : List String), order.Perm names →
      (∀ m ∈ names, ∀ text ∈ textOf? value? m, IsLiteral text) →
        FilledByPart value? order parts) ↔ Apart parts) := by
  refine ⟨fun _ _ hperm htext hstraight => h.filledByPart_of_straight hperm htext hstraight,
    fun hfilled lead m tail n lead' k tail' hsub => ?_, fun hapart value? order hperm htext =>
    h.filledByPart_of_straight hperm htext fun _ n _ _ lead m tail lead' k tail' hsub =>
      .inl (hapart lead m tail n lead' k tail' hsub)⟩
  by_contra hmn
  have hn : n ∈ names := h.listed (.name n) (hsub.subset (by simp)) n rfl
  exact h.not_filledByPart hsub hmn (hfilled _ _ (List.perm_cons_erase hn).symm
    (by simp [textOf?, rendered, IsLiteral]))

/-- A group that is left out between two others, and a name behind all of them; and a name between
two groups of which the first one has had its turn. -/
theorem interpolate_parts_date :
    interpolate "($day)(/$month)(/$year)/$year"
      [⟨"$year", some (.text "1970")⟩, ⟨"$month", none⟩, ⟨"$day", some (.bool true)⟩] =
        .text "true/1970/1970" ∧
    interpolate "($a)-$b-($c)"
      [⟨"$a", some (.text "A")⟩, ⟨"$b", none⟩, ⟨"$c", some (.text "C")⟩] = .text "A-$b-C" := by
  let date : List Part := [.group [] "$day" [], .group ['/'] "$month" [], .group ['/'] "$year" [],
    .literal '/', .name "$year"]
  let row : List Part := [.group [] "$a" [], .literal '-', .name "$b", .literal '-',
    .group [] "$c" []]
  let ofDate? (n : String) : Option Tree :=
    if n = "$year" then some (.text "1970") else if n = "$day" then some (.bool true) else none
  let ofRow? (n : String) : Option Tree :=
    if n = "$a" then some (.text "A") else if n = "$c" then some (.text "C") else none
  have hdate : Readable ["$year", "$month", "$day"] date :=
    ⟨by decide, by decide, by decide, by decide, by decide, '/', by decide⟩
  have hrow : Readable ["$a", "$b", "$c"] row :=
    ⟨by decide, by decide, by decide, by decide, by decide, '-', by decide⟩
  have hapart : Apart date := by
    intro lead m tail n lead' k tail' hsub
    simp [date, List.cons_sublist_cons'] at hsub
  have hstraight : Straight ["$a", "$b", "$c"] row := by
    intro earlier n later horder lead m tail lead' k tail' hsub
    simp [row, List.cons_sublist_cons'] at hsub
    obtain ⟨⟨-, rfl, -⟩, rfl, -⟩ := hsub
    cases earlier with
    | nil => simp at horder
    | cons x earlier => exact .inr (.inl (by simp [(List.cons.inj horder).1]))
  exact ⟨(interpolate_parts hdate).2.mpr hapart ofDate? _ (.refl _) (by decide +kernel),
    (interpolate_parts hrow).1 ofRow? _ (.refl _) (by decide +kernel) hstraight⟩

/-- A name between two groups is taken to be in a group that reaches from the one to the other. -/
theorem interpolate_parts_between :
    let parts : List Part := [.group [] "$a" [], .literal '-', .name "$name", .literal '-',
      .group [] "$c" []]
    let value? (n : String) : Option Tree :=
      some (.text (if n = "$a" then "A" else if n = "$c" then "C" else "N"))
    let order := ["$name", "$a", "$c"]
    Readable order parts ∧ (∀ m ∈ order, ∀ text ∈ textOf? value? m, IsLiteral text) ∧
    String.ofList (parts.flatMap Part.chars) = "($a)-$name-($c)" ∧
    String.ofList (parts.flatMap (Part.meaning (textOf? value?))) = "A-N-C" ∧
    interpolate "($a)-$name-($c)" (inOrder value? order) = .text "A)-N-(C" ∧
    ¬ FilledByPart value? order parts := by
  intro parts value? order
  have hfilled : interpolate "($a)-$name-($c)" (inOrder value? order) = .text "A)-N-(C" := by
    decide +kernel
  refine ⟨⟨by decide, by decide, by decide, by decide, by decide, '-', by decide⟩,
    by decide +kernel, by decide +kernel, by decide +kernel, hfilled, ?_⟩
  intro h
  exact absurd (hfilled.symm.trans h) (by decide +kernel)

end EventPipeline.Template
