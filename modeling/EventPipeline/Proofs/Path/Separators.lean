import EventPipeline.Proofs.Path.Text

/-!
What separators do to a path. A path that is put together of two texts with a separator between them
has the steps of the one and those of the other, and separators at either end or in a row add
nothing. That is so exactly for the separators that cannot overlap themselves
(`parse_compositional`).
-/

namespace EventPipeline.Path

open Text (Unbordered)

variable {separator : String}

/-- A separator keeps the texts on both of its sides apart, whatever they are. -/
def Composes (separator : String) : Prop :=
  ∀ text more : String, (parse (text ++ separator ++ more) separator).steps =
    (parse text separator).steps ++ (parse more separator).steps

/-- A text is written several times in a row. -/
def repeated (n : Nat) (text : String) : String := String.join (List.replicate n text)

theorem repeated_succ (n : Nat) (text : String) :
    repeated (n + 1) text = text ++ repeated n text := by
  rw [repeated, List.replicate_succ, String.join_cons, repeated]

theorem Composes.leading (h : Composes separator) (text : String) :
    parse (separator ++ text) separator = parse text separator := by
  have happend := h "" text
  rw [String.empty_append, parse_empty, List.nil_append] at happend
  exact congrArg Path.mk happend

theorem Composes.trailing (h : Composes separator) (text : String) :
    parse (text ++ separator) separator = parse text separator := by
  have happend := h text ""
  rw [String.append_empty, parse_empty, List.append_nil] at happend
  exact congrArg Path.mk happend

/-- Any number of separators in a row are as good as one. -/
theorem Composes.repeated (h : Composes separator) (n : Nat) (text more : String) :
    parse (text ++ Path.repeated (n + 1) separator ++ more) separator =
      parse (text ++ separator ++ more) separator := by
  induction n generalizing text with
  | zero =>
    rw [repeated_succ, Path.repeated, List.replicate_zero, String.join_nil, String.append_empty]
  | succ n ih =>
    have hshift : text ++ Path.repeated (n + 1 + 1) separator ++ more =
        text ++ separator ++ Path.repeated (n + 1) separator ++ more := by
      simp only [repeated_succ, String.append_assoc]
    rw [hshift, ih]
    have hsteps := h (text ++ separator) more
    rw [h.trailing, ← h text more] at hsteps
    exact congrArg Path.mk hsteps

/-- Where a separator can overlap itself, the rest of it is read together with what follows. -/
theorem not_composes (hne : separator ≠ "") (hsep : ¬ Unbordered separator.toList) :
    ¬ Composes separator := by
  intro h
  obtain ⟨x, hx, hlast⟩ : ∃ x, x ≠ ']' ∧ separator.toList.getLast? ≠ some x := by
    by_cases ha : separator.toList.getLast? = some 'a'
    · exact ⟨'b', by decide, by rw [ha]; decide⟩
    · exact ⟨'a', by decide, ha⟩
  obtain ⟨v, w, hv, hwhole, hw, hletter⟩ := Text.exists_split_overlap hsep hlast
  have hname := segmentSteps_append_singleton hx
  have hsteps := h (String.ofList w) (String.ofList [x])
  simp only [steps_parse hne, String.toList_append, String.toList_ofList, List.append_assoc, hwhole,
    hw, hletter, List.flatMap_cons, List.flatMap_nil, List.append_nil, segmentSteps_nil,
    List.nil_append, hname v, show segmentSteps [x] = _ from hname []] at hsteps
  -- The last step is a longer name than the letter.
  have hkey := congrArg List.getLast? hsteps
  rw [List.getLast?_concat, List.getLast?_singleton] at hkey
  have hchars := congrArg String.toList (Step.key.inj (Option.some.inj hkey))
  rw [String.toList_ofList, String.toList_ofList] at hchars
  exact hv (List.append_left_eq_self.mp hchars)

/--
The path of two texts with a separator between them has the steps of the first text and then those of
the second, whatever is in them, exactly when no part of the separator both begins and ends it. Then
separators before and behind a text and in a row change nothing. A single character is such a
separator.
-/
theorem parse_compositional (hne : separator ≠ "") :
    (Unbordered separator.toList ↔ Composes separator) ∧
      (Unbordered separator.toList → ∀ (text more : String) (n : Nat),
        parse (separator ++ text) separator = parse text separator ∧
          parse (text ++ separator) separator = parse text separator ∧
          parse (text ++ repeated (n + 1) separator ++ more) separator =
            parse (text ++ separator ++ more) separator) ∧
      (separator.length = 1 → Unbordered separator.toList) := by
  have hcomposes (hsep : Unbordered separator.toList) : Composes separator :=
    parse_append_of_unbordered hsep hne
  refine ⟨⟨hcomposes, ?_⟩, ?_, ?_⟩
  · intro h
    by_contra hsep
    exact not_composes hne hsep h
  · intro hsep text more n
    have h := hcomposes hsep
    exact ⟨h.leading text, h.trailing text, h.repeated n text more⟩
  · intro hlength
    obtain ⟨c, hc⟩ := List.length_eq_one_iff.mp (String.length_toList.trans hlength)
    rw [hc]
    exact Text.unbordered_singleton c

/-- Parts of the separator on both of its sides complete no other one. -/
theorem parse_compositional_arrow :
    "->" ≠ "" ∧ Unbordered "->".toList ∧
      (parse ("a[0]->-" ++ "->" ++ ">b[x]") "->").steps =
        [.key "a", .index 0, .key "-", .key ">b[x]"] ∧
      parse ("a" ++ repeated 3 "->" ++ "b") "->" = parse ("a" ++ "->" ++ "b") "->" ∧
      "::" ≠ "" ∧ ¬ Composes "::" := by
  have hne : "->" ≠ "" := by decide
  have hne' : "::" ≠ "" := by decide
  have hsep : Unbordered "->".toList := by decide
  obtain ⟨hcomposes, hidle, -⟩ := parse_compositional hne
  obtain ⟨hcomposes', -, -⟩ := parse_compositional hne'
  refine ⟨hne, hsep, ?_, (hidle hsep "a" "b" 2).2.2, hne', mt hcomposes'.mpr (by decide)⟩
  exact (hcomposes.mp hsep "a[0]->-" ">b[x]").trans (by decide +kernel)

end EventPipeline.Path
