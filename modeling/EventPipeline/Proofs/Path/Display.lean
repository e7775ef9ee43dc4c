import EventPipeline.Proofs.Path.Text

/-!
Paths that are shown and read again. Segments are shown without what stood between them, and
indices without their signs and leading zeros, so that many texts are shown alike; but a name is
what was left of a segment once nothing more could be taken off its end, and nothing more can be
taken off when it is read again. Main statement: a path is read from the text that shows it exactly
when all of its steps are *canonical* (`parse_display_iff`), which those of a path that was read
are, but for names with a point in them (`parse_display`).
-/

namespace EventPipeline.Path

/-- A step that is read where it is shown: an index that can be read, or a name without a point
that does not end with one. -/
inductive Step.Canonical : Step → Prop where
  | key {name : String} : '.' ∉ name.toList → segmentSteps name.toList = [.key name] →
    Canonical (.key name)
  | index {i : Nat} : i < Text.countLimit → Canonical (.index i)

/-! ### What is left of a segment -/

/-- The steps of a segment from which no index can be taken. -/
def nameSteps (name : List Char) : List Step :=
  if name = [] then [] else [.key (String.ofList name)]

/-- Indices are taken until none is left to take. -/
theorem exists_takeIndices (segment : List Char) (indices : List Nat) :
    ∃ name taken, name <:+ segment ∧ (∀ i ∈ taken, i < Text.countLimit) ∧
      takeIndices segment indices = (name, taken ++ indices) ∧
      ∀ more, takeIndices name more = (name, more) := by
  induction hlen : segment.length using Nat.strong_induction_on generalizing segment indices with
  | _ n ih =>
    subst hlen
    rcases takeIndices_step segment with ⟨outer, i, hsuffix, hlt, hi, hstep⟩ | hname
    · obtain ⟨name, taken, hname, htaken, htake, hdone⟩ := ih _ hlt outer (i :: indices) rfl
      refine ⟨name, taken ++ [i], hname.trans hsuffix, fun j hj => ?_, ?_, hdone⟩
      · rcases List.mem_append.mp hj with hj | hj
        · exact htaken j hj
        · exact List.mem_singleton.mp hj ▸ hi
      · rw [hstep, htake, List.append_assoc, List.singleton_append]
    · exact ⟨segment, [], List.suffix_rfl, nofun, hname indices, hname⟩

theorem exists_segmentSteps (segment : List Char) :
    ∃ (name : List Char) (indices : List Nat), name <+: segment ∧
      (∀ i ∈ indices, i < Text.countLimit) ∧
      segmentSteps segment = nameSteps name ++ indices.map .index ∧
      segmentSteps name = nameSteps name := by
  obtain ⟨name, indices, hsuffix, hindices, htake, hdone⟩ := exists_takeIndices segment.reverse []
  rw [List.append_nil] at htake
  refine ⟨name.reverse, indices, ?_, hindices, ?_, ?_⟩
  · rw [← List.reverse_suffix, List.reverse_reverse]
    exact hsuffix
  · simp only [segmentSteps, htake, nameSteps, List.reverse_eq_nil_iff]
  · simp only [segmentSteps, List.reverse_reverse, hdone [], nameSteps, List.reverse_eq_nil_iff,
      List.map_nil, List.append_nil]

/-- The steps of a segment are canonical, but for a name with a point in it. -/
theorem canonical_of_mem_segmentSteps {segment : List Char} {s : Step}
    (h : s ∈ segmentSteps segment) (hpoint : ∀ name, s = .key name → '.' ∉ name.toList) :
    s.Canonical := by
  obtain ⟨name, indices, -, hindices, hsteps, hname⟩ := exists_segmentSteps segment
  rw [hsteps] at h
  rcases List.mem_append.mp h with h | h
  · have hne : name ≠ [] := by
      rintro rfl
      cases h
    rw [nameSteps, if_neg hne] at h hname
    obtain rfl := List.mem_singleton.mp h
    exact .key (hpoint _ rfl) (by rw [String.toList_ofList, hname])
  · obtain ⟨i, hi, rfl⟩ := List.mem_map.mp h
    exact .index (hindices i hi)

/-- Nothing is in a name that is not in its segment. -/
theorem notMem_of_key_mem_segmentSteps {segment : List Char} {c : Char} (hc : c ∉ segment)
    {name : String} (h : .key name ∈ segmentSteps segment) : c ∉ name.toList := by
  obtain ⟨chars, indices, hstart, -, hsteps, -⟩ := exists_segmentSteps segment
  rw [hsteps] at h
  rcases List.mem_append.mp h with h | h
  · rw [nameSteps] at h
    split at h
    · cases h
    · rw [Step.key.inj (List.mem_singleton.mp h), String.toList_ofList]
      exact fun hmem => hc (hstart.subset hmem)
  · simp at h

/-! ### Showing and reading again -/

theorem tailText_append (steps rest : List Step) :
    tailText (steps ++ rest) = tailText steps ++ tailText rest := by
  induction steps with
  | nil => simp [tailText]
  | cons s steps ih => cases s <;> simp [tailText, ih, String.append_assoc]

/-- Behind the first step, a name is shown behind a point and an index in brackets. -/
theorem display_append {steps : List Step} (h : steps ≠ []) (s : Step) :
    display ⟨steps ++ [s]⟩ = display ⟨steps⟩ ++ tailText [s] := by
  cases steps with
  | nil => exact absurd rfl h
  | cons r steps =>
    cases r
    all_goals
      change display ⟨_ :: (steps ++ [s])⟩ = _
      simp only [display, tailText, tailText_append, String.append_assoc]

/-- What is shown of a canonical step is read as that step. -/
theorem parse_append_tailText {s : Step} (hs : s.Canonical) (text : String) :
    (parse (text ++ tailText [s]) defaultSeparator).steps =
      (parse text defaultSeparator).steps ++ [s] := by
  change (parse _ (String.singleton '.')).steps = (parse _ (String.singleton '.')).steps ++ [s]
  cases hs with
  | @key name hpoint hname =>
    have htext : text ++ tailText [.key name] = text ++ String.singleton '.' ++ name := by
      simp only [tailText, String.append_empty, String.append_assoc]
      rfl
    rw [htext, parse_append, parse_segment hpoint, hname]
  | @index i hi =>
    have htext : text ++ tailText [.index i] = text ++ "[" ++ toString i ++ "]" := by
      simp only [tailText, String.append_empty, String.append_assoc]
    rw [htext, parse_append_index text hi (by decide) (by decide) (by decide)]

theorem steps_parse_display {steps : List Step} (h : ∀ s ∈ steps, s.Canonical) :
    (parse (display ⟨steps⟩) defaultSeparator).steps = steps := by
  induction steps using List.reverseRecOn with
  | nil => decide +kernel
  | append_singleton steps s ih =>
    have hsteps : ∀ r ∈ steps, r.Canonical := fun r hr => h r (List.mem_append_left _ hr)
    have hs : s.Canonical := h s (List.mem_append_right _ (List.mem_singleton_self s))
    by_cases hnil : steps = []
    · subst hnil
      cases hs with
      | @key name hpoint hname =>
        -- The first name is shown without a point before it.
        have hdisplay : display ⟨[] ++ [.key name]⟩ = name := String.append_empty
        rw [hdisplay]
        exact (parse_segment hpoint).trans hname
      | @index i hi =>
        have hdisplay : display ⟨[] ++ [.index i]⟩ = "" ++ tailText [.index i] :=
          String.empty_append.symm
        rw [hdisplay, parse_append_tailText (.index hi)]
        exact congrArg (· ++ [.index i]) (parse_empty _)
    · rw [display_append hnil, parse_append_tailText hs, ih hsteps]

/-- The steps of a path that was read are canonical, but for names with a point in them. -/
theorem canonical_of_mem_parse {text separator : String} {s : Step}
    (h : s ∈ (parse text separator).steps) (hpoint : ∀ name, s = .key name → '.' ∉ name.toList) :
    s.Canonical := by
  obtain ⟨segment, -, hs⟩ := List.mem_flatMap.mp h
  exact canonical_of_mem_segmentSteps hs hpoint

/-- Nothing of the separator is in a name. -/
theorem notMem_of_key_mem_parse (separator : Char) {text name : String}
    (h : .key name ∈ (parse text (String.singleton separator)).steps) :
    separator ∉ name.toList := by
  rw [steps_parse_singleton] at h
  obtain ⟨segment, hsegment, h⟩ := List.mem_flatMap.mp h
  exact notMem_of_key_mem_segmentSteps (Text.notMem_of_mem_split hsegment) h

/-- Exactly the paths of canonical steps are read from the texts that show them. -/
theorem parse_display_iff (p : Path) :
    parse p.display defaultSeparator = p ↔ ∀ s ∈ p.steps, s.Canonical := by
  constructor
  · intro h s hs
    rw [← h] at hs
    apply canonical_of_mem_parse hs
    rintro name rfl
    exact notMem_of_key_mem_parse '.' hs
  · intro h
    obtain ⟨steps⟩ := p
    exact congrArg Path.mk (steps_parse_display h)

/--
A path that was read from a text is read again from the text that shows it, if there is no point in
its names; and there is none in those of a path that was read with the default separator.
-/
theorem parse_display (text separator : String) :
    ((∀ name, .key name ∈ (parse text separator).steps → '.' ∉ name.toList) →
      parse (parse text separator).display defaultSeparator = parse text separator) ∧
    (orDefault separator = defaultSeparator →
      parse (parse text separator).display defaultSeparator = parse text separator) := by
  have hread (h : ∀ name, .key name ∈ (parse text separator).steps → '.' ∉ name.toList) :
      parse (parse text separator).display defaultSeparator = parse text separator := by
    rw [parse_display_iff]
    intro s hs
    apply canonical_of_mem_parse hs
    rintro name rfl
    exact h name hs
  refine ⟨hread, fun hsep => hread fun name hname => ?_⟩
  have hsame : parse text separator = parse text (String.singleton '.') := by
    rw [parse, hsep]
    rfl
  rw [hsame] at hname
  exact notMem_of_key_mem_parse '.' hname

/-- Signs, zeros and separators are not shown, brackets that hold no index are. -/
theorem parse_display_brackets :
    let text := "/a[007]/[+1]//b[x][18446744073709551616]/[c/[2]]"
    let steps : List Step := [.key "a", .index 7, .index 1, .key "b[x][18446744073709551616]",
      .key "[c", .key "[2]]"]
    let shown := "a[7][1].b[x][18446744073709551616].[c.[2]]"
    (parse text "/" = ⟨steps⟩ ∧ (parse text "/").display = shown ∧
      ∀ name, .key name ∈ (parse text "/").steps → '.' ∉ name.toList) ∧
    parse shown "." = ⟨steps⟩ ∧
    orDefault "" = defaultSeparator ∧
    parse (parse ". [0]." "").display "." = parse ". [0]." "" := by
  intro text steps shown
  have htext : parse text "/" = ⟨steps⟩ := by decide +kernel
  have hshown : (parse text "/").display = shown := by decide +kernel
  have hnames : ∀ name, .key name ∈ (parse text "/").steps → '.' ∉ name.toList := by
    rw [htext]
    intro name hname
    simp only [steps, List.mem_cons, Step.key.injEq, reduceCtorEq, false_or, List.not_mem_nil,
      or_false] at hname
    rcases hname with rfl | rfl | rfl | rfl
    all_goals decide
  have hread := (parse_display text "/").1 hnames
  have hdefault : orDefault "" = defaultSeparator := rfl
  rw [hshown, htext] at hread
  exact ⟨⟨htext, hshown, hnames⟩, hread, hdefault, (parse_display ". [0]." "").2 hdefault⟩

end EventPipeline.Path
