/-!
Searching a text for another. Occurrences are taken from the left and do not overlap. Main
statement: what `find?` returns is an occurrence (`find?_eq_some`).
-/

namespace EventPipeline.Text

/-- The text after the leading `pat`, if the text starts with it. -/
def dropLeading? : (pat text : List Char) → Option (List Char)
  | [], cs => some cs
  | _ :: _, [] => none
  | p :: ps, c :: cs => if p = c then dropLeading? ps cs else none

theorem dropLeading?_eq_some {pat text rest : List Char} :
    dropLeading? pat text = some rest ↔ text = pat ++ rest := by
  induction pat generalizing text with
  | nil => simp [dropLeading?]
  | cons p ps ih =>
    cases text with
    | nil => simp [dropLeading?]
    | cons c cs =>
      by_cases h : p = c
      · simp [dropLeading?, h, ih]
      · simp [dropLeading?, h, Ne.symm h]

/-- The first occurrence of `pat`: what stands before it, last character first, and after it. -/
def find? (pat : List Char) (before : List Char) : List Char → Option (List Char × List Char)
  | [] => if pat = [] then some (before, []) else none
  | c :: cs =>
    match dropLeading? pat (c :: cs) with
    | some after => some (before, after)
    | none => find? pat (c :: before) cs

theorem find?_eq_some {pat before text pre post : List Char}
    (h : find? pat before text = some (pre, post)) :
    before.reverse ++ text = pre.reverse ++ pat ++ post := by
  induction text generalizing before with
  | nil =>
    simp only [find?, Option.ite_none_right_eq_some, Option.some.injEq, Prod.mk.injEq] at h
    obtain ⟨rfl, rfl, rfl⟩ := h
    simp
  | cons c cs ih =>
    rw [find?] at h
    split at h
    · next after ha =>
      simp only [Option.some.injEq, Prod.mk.injEq] at h
      obtain ⟨rfl, rfl⟩ := h
      simp [dropLeading?_eq_some.mp ha]
    · simpa using ih h

/-- What stands after an occurrence is shorter than the text by the length of the occurrence. -/
theorem find?_length_le {pat before text pre post : List Char}
    (h : find? pat before text = some (pre, post)) : post.length + pat.length ≤ text.length := by
  induction text generalizing before with
  | nil =>
    simp only [find?, Option.ite_none_right_eq_some, Option.some.injEq, Prod.mk.injEq] at h
    obtain ⟨rfl, rfl, rfl⟩ := h
    simp
  | cons c cs ih =>
    rw [find?] at h
    split at h
    · next after ha =>
      simp only [Option.some.injEq, Prod.mk.injEq] at h
      obtain ⟨rfl, rfl⟩ := h
      rw [dropLeading?_eq_some.mp ha, List.length_append]
      omega
    · have := ih h
      simp only [List.length_cons]
      omega

/-- Whether `pat` occurs in the text. -/
def occurs (pat text : String) : Bool := (find? pat.toList [] text.toList).isSome

/--
The pieces between the occurrences of `sep`. `piece` holds the current piece, last character
first, and `skip` counts the characters of an occurrence that are still to be passed over.
-/
def pieces (sep : List Char) : (skip : Nat) → (piece : List Char) → List Char → List (List Char)
  | _, piece, [] => [piece.reverse]
  | skip + 1, piece, _ :: cs => pieces sep skip piece cs
  | 0, piece, c :: cs =>
    match dropLeading? sep (c :: cs) with
    | some _ => piece.reverse :: pieces sep (sep.length - 1) [] cs
    | none => pieces sep 0 (c :: piece) cs

/-- The pieces of a text between the occurrences of the non-empty text `sep`. -/
def split (sep text : List Char) : List (List Char) := pieces sep 0 [] text

@[simp] theorem split_nil (sep : List Char) : split sep [] = [[]] := rfl

theorem pieces_skip (sep piece : List Char) (skip : Nat) (cs : List Char) (h : skip ≤ cs.length) :
    pieces sep skip piece cs = pieces sep 0 piece (cs.drop skip) := by
  induction skip generalizing cs with
  | zero => rfl
  | succ n ih =>
    cases cs with
    | nil => simp at h
    | cons c cs => simp only [pieces, List.drop_succ_cons]; exact ih cs (by simpa using h)

end EventPipeline.Text
