import EventPipeline.Proofs.Text.Occurrences

/-!
Separators that cannot overlap themselves. Where such a separator stands between two texts, it is
found when all before it have been, so that each text is cut into pieces as if it stood alone
(`Unbordered.split_append`). A separator with a border, a part that it both begins and ends with,
can be found too early, at an occurrence that ends in the border (`exists_split_overlap`).
-/

namespace EventPipeline.Text

/-- No part of the text is at its beginning and at its end, but the empty one and the whole. -/
def Unbordered (sep : List Char) : Prop := ∀ u, u <+: sep → u <:+ sep → u = [] ∨ u = sep

instance (sep : List Char) : Decidable (Unbordered sep) :=
  decidable_of_iff (∀ u ∈ sep.inits, u <:+ sep → u = [] ∨ u = sep) <| by
    simp only [List.mem_inits]
    rfl

variable {sep a b : List Char}

theorem unbordered_singleton (c : Char) : Unbordered [c] := by
  intro u hprefix _
  rcases List.prefix_cons_iff.mp hprefix with rfl | ⟨t, rfl, ht⟩
  · exact .inl rfl
  · exact .inr (congrArg _ (List.prefix_nil.mp ht))

theorem exists_border (h : ¬ Unbordered sep) :
    ∃ u v w, u ≠ [] ∧ v ≠ [] ∧ u ++ v = sep ∧ w ++ u = sep := by
  simp only [Unbordered, not_forall, not_or] at h
  obtain ⟨u, ⟨v, hv⟩, ⟨w, hw⟩, hne, hwhole⟩ := h
  refine ⟨u, v, w, hne, ?_, hv, hw⟩
  rintro rfl
  rw [List.append_nil] at hv
  exact hwhole hv

/-- No occurrence begins in a text without one and ends in the separator behind it. -/
theorem Unbordered.not_prefix_append (hsep : Unbordered sep) (ha : a ≠ []) (hstart : ¬ sep <+: a)
    (b : List Char) : ¬ sep <+: a ++ (sep ++ b) := by
  intro h
  rcases List.prefix_or_prefix_of_prefix h (List.prefix_append a _) with hprefix | ⟨t, rfl⟩
  · exact hstart hprefix
  · -- What of the occurrence is behind the text is a border.
    have hbehind : t <+: a ++ t ++ b := (List.prefix_append_right_inj a).mp h
    have hprefix : t <+: a ++ t := by
      refine List.prefix_of_prefix_length_le hbehind (List.prefix_append _ b) ?_
      rw [List.length_append]
      exact Nat.le_add_left _ _
    rcases hsep t hprefix (List.suffix_append a t) with rfl | hwhole
    · rw [List.append_nil] at hstart
      exact hstart List.prefix_rfl
    · exact ha (List.self_eq_append_left.mp hwhole)

variable {before pre post : List Char}

/-- Behind a text without an occurrence, the separator itself is found first. -/
theorem Unbordered.find?_append (hsep : Unbordered sep) (hne : sep ≠ [])
    (h : find? sep before a = none) (b : List Char) :
    find? sep before (a ++ (sep ++ b)) = some (a.reverse ++ before, b) := by
  induction a generalizing before with
  | nil => exact Text.find?_append hne before b
  | cons c a ih =>
    have hoccurs := find?_eq_none_iff.mp h
    rw [List.infix_cons_iff, not_or] at hoccurs
    have hstart := hsep.not_prefix_append (List.cons_ne_nil c a) hoccurs.1 b
    rw [List.cons_append] at hstart ⊢
    rw [find?_cons_of_not_leading hstart, ih (find?_eq_none_iff.mpr hoccurs.2)]
    simp

/-- What follows a text does not change where its first occurrence is. -/
theorem find?_append_of_some (hne : sep ≠ []) (h : find? sep before a = some (pre, post))
    (b : List Char) : find? sep before (a ++ b) = some (pre, post ++ b) := by
  induction a generalizing before with
  | nil =>
    rw [find?, if_neg hne] at h
    cases h
  | cons c a ih =>
    rw [find?] at h
    split at h
    · next after hstart =>
      cases h
      rw [dropLeading?_eq_some.mp hstart, List.append_assoc, Text.find?_append hne]
    · next hstart =>
      have hlength := find?_length_le h
      have hprefix : ¬ sep <+: c :: a ++ b := by
        intro hprefix
        -- The text has room for a whole occurrence, so that one at its start would be in it.
        have hlong : sep.length ≤ (c :: a).length := by
          rw [List.length_cons]
          omega
        exact dropLeading?_eq_none_iff.mp hstart
          (List.prefix_of_prefix_length_le hprefix (List.prefix_append _ b) hlong)
      rw [List.cons_append] at hprefix ⊢
      rw [find?_cons_of_not_leading hprefix, ih h]

/-- A separator between two texts cuts them apart, whatever they are. -/
theorem Unbordered.split_append (hsep : Unbordered sep) (hne : sep ≠ []) (a b : List Char) :
    split sep (a ++ (sep ++ b)) = split sep a ++ split sep b := by
  induction hlen : a.length using Nat.strong_induction_on generalizing a with
  | _ n ih =>
    subst hlen
    cases h : find? sep [] a with
    | none =>
      rw [split_of_find? hne (hsep.find?_append hne h b), split_of_find?_eq_none h]
      simp
    | some found =>
      obtain ⟨pre, post⟩ := found
      have hlt : post.length < a.length := by
        have := find?_length_le h
        have := List.length_pos_iff.mpr hne
        omega
      rw [split_of_find? hne (find?_append_of_some hne h _), split_of_find? hne h,
        ih _ hlt post rfl, List.cons_append]

/-- In particular a single character does. -/
theorem split_append_cons (c : Char) (a b : List Char) :
    split [c] (a ++ c :: b) = split [c] a ++ split [c] b :=
  (unbordered_singleton c).split_append (List.cons_ne_nil c []) a b

/-- A text that is too short for the separator is one piece. -/
theorem split_of_length_le (hlength : a.length ≤ sep.length) (hne : a ≠ sep) :
    split sep a = [a] := by
  apply split_of_find?_eq_none
  apply find?_eq_none_iff.mpr
  intro hoccurs
  exact hne (hoccurs.sublist.eq_of_length_le hlength).symm

/-- A separator with a border is found too early behind what it has before the border at its end.
The letter behind it stands for any text that does not complete another occurrence. -/
theorem exists_split_overlap (hsep : ¬ Unbordered sep) {x : Char} (hx : sep.getLast? ≠ some x) :
    ∃ v w, v ≠ [] ∧ split sep (w ++ (sep ++ [x])) = [[], v ++ [x]] ∧ split sep w = [w] ∧
      split sep [x] = [[x]] := by
  obtain ⟨u, v, w, hu, hv, huv, hwu⟩ := exists_border hsep
  have hends (front : List Char) : front ++ [x] ≠ sep := by
    rintro rfl
    exact hx List.getLast?_concat
  have hpos := List.length_pos_iff.mpr hu
  have hlength : u.length + v.length = sep.length := huv ▸ List.length_append.symm
  have hlength' : w.length + u.length = sep.length := hwu ▸ List.length_append.symm
  refine ⟨v, w, hv, ?_, ?_, ?_⟩
  · have htext : w ++ (sep ++ [x]) = sep ++ (v ++ [x]) := by
      conv_lhs => rw [← huv, List.append_assoc, ← List.append_assoc, hwu]
    have hne : sep ≠ [] := List.length_pos_iff.mp (by omega)
    rw [htext, split_of_find? hne (find?_append hne [] _), split_of_length_le _ (hends v)]
    · rfl
    · rw [List.length_append, List.length_singleton]
      omega
  · apply split_of_length_le
    · omega
    · rintro rfl
      omega
  · apply split_of_length_le
    · rw [List.length_singleton]
      omega
    · exact hends []

end EventPipeline.Text
