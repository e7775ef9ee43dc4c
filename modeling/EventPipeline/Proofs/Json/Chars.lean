import EventPipeline.Json.Document
import EventPipeline.Json.Writer

/-!
Strings are read as they were written. `stringChars` are the characters of a string with its
quotes: they are what is written (`toList_writeString`), and what is taken off the front of a text
(`takeString?_escaped`).
-/

namespace EventPipeline.Json

/-- A string as it is written, without the opening quote. -/
def closingChars (s : String) : List Char := s.toList.flatMap escaped ++ ['"']

/-- A string as it is written. -/
def stringChars (s : String) : List Char := '"' :: closingChars s

theorem toList_foldl_push (out : String) (cs : List Char) :
    (cs.foldl String.push out).toList = out.toList ++ cs := by
  induction cs generalizing out with
  | nil => exact (List.append_nil _).symm
  | cons c cs ih => rw [List.foldl_cons, ih, String.toList_push, List.append_assoc]; rfl

theorem toList_foldl_escaped (out : String) (cs : List Char) :
    (cs.foldl (fun out c => (escaped c).foldl String.push out) out).toList =
      out.toList ++ cs.flatMap escaped := by
  induction cs generalizing out with
  | nil => exact (List.append_nil _).symm
  | cons c cs ih =>
    rw [List.foldl_cons, ih, toList_foldl_push, List.append_assoc, List.flatMap_cons]

theorem toList_writeString (out s : String) :
    (writeString out s).toList = out.toList ++ stringChars s := by
  rw [writeString, String.toList_push, toList_foldl_escaped, String.toList_push, stringChars,
    closingChars, List.append_assoc, List.append_assoc]
  rfl

/-- Digits in lower case give back the number of a control character. -/
theorem hexUnit?_hexChar : ∀ n < 0x20, hexUnit? '0' '0' (hexChar (n / 16)) (hexChar n) = some n := by
  decide

theorem pushUnit_of_lt {st : StringState} {n : Nat} (hn : n < 0x20) :
    st.pushUnit n = st.push (Char.ofNat n) := by
  have hhigh : StringState.isHighHalf n = false := by
    simp only [StringState.isHighHalf, Bool.and_eq_false_iff, decide_eq_false_iff_not]
    omega
  have hlow : StringState.isLowHalf n = false := by
    simp only [StringState.isLowHalf, Bool.and_eq_false_iff, decide_eq_false_iff_not]
    omega
  simp only [StringState.pushUnit, hhigh, hlow, Bool.false_eq_true, if_false]

/-- Most characters stand for themselves. -/
theorem takeString?_cons {st : StringState} {c : Char} (hquote : c ≠ '"') (hslash : c ≠ '\\')
    (hctl : ¬ c.toNat < 0x20) (rest : List Char) :
    takeString? st (c :: rest) = takeString? (st.push c) rest := by
  rw [takeString?]
  · simp [hctl, hslash]
  · exact hquote
  · exact fun _ _ _ _ _ h => absurd h hslash
  · exact fun _ _ h => absurd h hslash

/-- A character is read as it is written. -/
theorem takeString?_escaped (st : StringState) (c : Char) (rest : List Char) :
    takeString? st (escaped c ++ rest) = takeString? (st.push c) rest := by
  rw [escaped]
  split
  · next h => subst h; rfl
  split
  · next h => subst h; rfl
  split
  · next h => subst h; rfl
  split
  · next h => subst h; rfl
  split
  · next h => subst h; rfl
  split
  · next h => subst h; rfl
  split
  · next h => subst h; rfl
  split
  · next h =>
    have hunit := hexUnit?_hexChar c.toNat h
    simp only [List.cons_append, List.nil_append, takeString?, hunit, pushUnit_of_lt h,
      Char.ofNat_toNat]
  · next hquote hslash _ _ _ _ _ hctl => exact takeString?_cons hquote hslash hctl rest

theorem takeString?_flatMap (st : StringState) (hs : st.sound = true) (hh : st.half = none)
    (cs rest : List Char) :
    takeString? st (cs.flatMap escaped ++ '"' :: rest) =
      some (some (String.ofList (st.chars.reverse ++ cs)), rest) := by
  induction cs generalizing st with
  | nil =>
    rw [List.flatMap_nil, List.nil_append, takeString?, StringState.finish, hs, hh,
      List.append_nil]
    rfl
  | cons c cs ih =>
    rw [List.flatMap_cons, List.append_assoc, takeString?_escaped,
      ih (st.push c) (by rw [StringState.push, hs, hh]; rfl) rfl]
    simp only [StringState.push, List.reverse_cons, List.append_assoc, List.singleton_append]

/-- A string is read as it is written. -/
theorem takeString?_closingChars (s : String) (rest : List Char) :
    takeString? {} (closingChars s ++ rest) = some (some s, rest) := by
  rw [closingChars, List.append_assoc, List.singleton_append, takeString?_flatMap {} rfl rfl]
  simp only [List.reverse_nil, List.nil_append, String.ofList_toList]

end EventPipeline.Json
