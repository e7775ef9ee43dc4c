import EventPipeline.Path.Text
import EventPipeline.Proofs.Text.Digits
import EventPipeline.Proofs.Text.Unbordered
import Mathlib.Data.List.TakeWhile

/-!
Reading a path whose text is put together from its front. An index in brackets at the end of a text
is one more step (`parse_append_index`), whatever stands before it; and so is a name behind a
separator (`parse_append_key`). Separators are single characters here, except in the lemmas that say
what they need of one (`parse_append_of_unbordered`).
-/

namespace EventPipeline.Path

/-- A step that is told from its neighbours in the text of a path. -/
inductive Step.Legible (separator : Char) : Step → Prop where
  | key {name : String} : name ≠ "" → separator ∉ name.toList → '[' ∉ name.toList →
    Legible separator (.key name)
  | index {i : Nat} : i < Text.countLimit → Legible separator (.index i)

variable {separator : Char}

/-- An index at the end of a segment is taken. -/
theorem takeIndices_of_read {body outer : List Char} {head : Char} {i : Nat}
    (hdrop : body.dropWhile (· != '[') = head :: outer)
    (hread : Text.readCount? (body.takeWhile (· != '[')).reverse = some i) (indices : List Nat) :
    takeIndices (']' :: body) indices = takeIndices outer (i :: indices) := by
  rw [takeIndices]
  split
  · next heq =>
    obtain ⟨-, rfl⟩ := List.cons.inj (hdrop.symm.trans heq)
    rw [hread]
  · next heq => rw [hdrop] at heq; cases heq

/-- A segment that does not end with an index is left as it is. -/
theorem takeIndices_of_not_read {segment : List Char}
    (h : ∀ body head outer, segment = ']' :: body → body.dropWhile (· != '[') = head :: outer →
      Text.readCount? (body.takeWhile (· != '[')).reverse = none) (indices : List Nat) :
    takeIndices segment indices = (segment, indices) := by
  unfold takeIndices
  split
  · next body =>
    split
    · next heq => rw [h body _ _ rfl heq]
    · rfl
  · rfl

/-- A segment ends with an index, which is taken first, or all of it is the name. -/
theorem takeIndices_step (segment : List Char) :
    (∃ outer i, outer <:+ segment ∧ outer.length < segment.length ∧ i < Text.countLimit ∧
      ∀ indices, takeIndices segment indices = takeIndices outer (i :: indices)) ∨
    ∀ indices, takeIndices segment indices = (segment, indices) := by
  by_cases h : ∃ body head outer i, segment = ']' :: body ∧
      body.dropWhile (· != '[') = head :: outer ∧
      Text.readCount? (body.takeWhile (· != '[')).reverse = some i
  · obtain ⟨body, head, outer, i, rfl, hdrop, hread⟩ := h
    have hsuffix : head :: outer <:+ body := hdrop ▸ List.dropWhile_suffix _
    have hlen := hsuffix.length_le
    rw [List.length_cons] at hlen
    refine .inl ⟨outer, i, ?_, ?_, Text.readCount?_lt hread, takeIndices_of_read hdrop hread⟩
    · exact ((List.suffix_cons head outer).trans hsuffix).trans (List.suffix_cons _ body)
    · rw [List.length_cons]
      omega
  · refine .inr (takeIndices_of_not_read fun body head outer hbody hdrop => ?_)
    rw [Option.eq_none_iff_forall_ne_some]
    exact fun i hread => h ⟨body, head, outer, i, hbody, hdrop, hread⟩

/-- Indices that are there before stay behind those that are taken. -/
theorem takeIndices_append (segment : List Char) (indices more : List Nat) :
    takeIndices segment (indices ++ more) =
      ((takeIndices segment indices).1, (takeIndices segment indices).2 ++ more) := by
  induction hlen : segment.length using Nat.strong_induction_on generalizing segment indices with
  | _ n ih =>
    subst hlen
    rcases takeIndices_step segment with ⟨outer, i, -, hlt, -, hstep⟩ | hname
    · rw [hstep, hstep, ← List.cons_append, ih _ hlt _ _ rfl]
    · rw [hname, hname]

theorem takeIndices_index {i : Nat} (hi : i < Text.countLimit) (outer : List Char)
    (indices : List Nat) :
    takeIndices (']' :: ((Nat.toDigits 10 i).reverse ++ '[' :: outer)) indices =
      takeIndices outer (i :: indices) := by
  have hne : '[' ∉ (Nat.toDigits 10 i).reverse := fun hc =>
    absurd (Text.isDigit_of_mem_toDigits (List.mem_reverse.mp hc)) (by decide)
  refine takeIndices_of_read (Text.dropWhile_ne_append_cons hne) ?_ indices
  rw [Text.takeWhile_ne_append_cons hne, List.reverse_reverse, Text.readCount?_toDigits hi]

theorem takeIndices_of_notMem {segment : List Char} (h : '[' ∉ segment) (indices : List Nat) :
    takeIndices segment indices = (segment, indices) := by
  refine takeIndices_of_not_read (fun body head outer hbody hdrop => ?_) indices
  have hnil : body.dropWhile (· != '[') = [] := by
    refine List.dropWhile_eq_nil_iff.mpr fun c hc => ?_
    rw [bne_iff_ne]
    rintro rfl
    exact h (hbody ▸ List.mem_cons_of_mem _ hc)
  rw [hnil] at hdrop
  cases hdrop

theorem segmentSteps_append_index {i : Nat} (hi : i < Text.countLimit) (segment : List Char) :
    segmentSteps (segment ++ '[' :: (Nat.toDigits 10 i ++ [']'])) =
      segmentSteps segment ++ [.index i] := by
  have hreverse : (segment ++ '[' :: (Nat.toDigits 10 i ++ [']'])).reverse =
      ']' :: ((Nat.toDigits 10 i).reverse ++ '[' :: segment.reverse) := by
    simp
  have happend := takeIndices_append segment.reverse [] [i]
  rw [List.nil_append] at happend
  simp only [segmentSteps, hreverse, takeIndices_index hi, happend, List.map_append,
    List.append_assoc, List.map_cons, List.map_nil]

@[simp] theorem segmentSteps_nil : segmentSteps [] = [] := by
  simp [segmentSteps, takeIndices]

/-- A segment from which no index is taken is a name. -/
theorem segmentSteps_of_takeIndices {segment : List Char} (hne : segment ≠ [])
    (htake : takeIndices segment.reverse [] = (segment.reverse, [])) :
    segmentSteps segment = [.key (String.ofList segment)] := by
  simp only [segmentSteps, htake, List.reverse_eq_nil_iff, if_neg hne, List.reverse_reverse,
    List.map_nil, List.append_nil]

theorem segmentSteps_of_notMem {segment : List Char} (hne : segment ≠ []) (h : '[' ∉ segment) :
    segmentSteps segment = [.key (String.ofList segment)] :=
  segmentSteps_of_takeIndices hne (takeIndices_of_notMem (mt List.mem_reverse.mp h) [])

/-- In particular one that does not end with a bracket. -/
theorem segmentSteps_append_singleton {c : Char} (hc : c ≠ ']') (front : List Char) :
    segmentSteps (front ++ [c]) = [.key (String.ofList (front ++ [c]))] := by
  refine segmentSteps_of_takeIndices (by simp) (takeIndices_of_not_read ?_ [])
  intro body head outer hbody _
  rw [List.reverse_append] at hbody
  exact absurd (List.cons.inj hbody).1 hc

/-! ### Texts -/

theorem steps_parse {separator : String} (hne : separator ≠ "") (text : String) :
    (parse text separator).steps =
      (Text.split separator.toList text.toList).flatMap segmentSteps := by
  rw [parse, orDefault, if_neg hne]

theorem parse_empty (separator : String) : (parse "" separator).steps = [] := by
  rw [parse, String.toList_empty, Text.split_nil, List.flatMap_singleton, segmentSteps_nil]

/-- What stands on both sides of a separator is read apart. -/
theorem parse_append_of_unbordered {separator : String}
    (hsep : Text.Unbordered separator.toList) (hne : separator ≠ "") (text more : String) :
    (parse (text ++ separator ++ more) separator).steps =
      (parse text separator).steps ++ (parse more separator).steps := by
  simp only [steps_parse hne, String.toList_append, List.append_assoc,
    hsep.split_append (mt String.toList_eq_nil_iff.mp hne), List.flatMap_append]

theorem singleton_ne_empty (c : Char) : String.singleton c ≠ "" := by
  intro h
  have := congrArg String.toList h
  simp at this

theorem steps_parse_singleton (separator : Char) (text : String) :
    (parse text (String.singleton separator)).steps =
      (Text.split [separator] text.toList).flatMap segmentSteps := by
  rw [steps_parse (singleton_ne_empty separator), String.toList_singleton]

/-- A text without the separator is one segment. -/
theorem parse_segment {text : String} (hsep : separator ∉ text.toList) :
    (parse text (String.singleton separator)).steps = segmentSteps text.toList := by
  rw [steps_parse_singleton, Text.split_of_find?_eq_none (Text.find?_eq_none_of_notMem hsep),
    List.flatMap_singleton]

theorem parse_name {name : String} (hne : name ≠ "") (hsep : separator ∉ name.toList)
    (hopen : '[' ∉ name.toList) :
    (parse name (String.singleton separator)).steps = [.key name] := by
  rw [parse_segment hsep, segmentSteps_of_notMem (mt String.toList_eq_nil_iff.mp hne) hopen,
    String.ofList_toList]

theorem parse_append (text more : String) :
    (parse (text ++ String.singleton separator ++ more) (String.singleton separator)).steps =
      (parse text (String.singleton separator)).steps ++
        (parse more (String.singleton separator)).steps := by
  apply parse_append_of_unbordered _ (singleton_ne_empty separator)
  rw [String.toList_singleton]
  exact Text.unbordered_singleton separator

/-- A name behind a separator is one more step. -/
theorem parse_append_key (text : String) {name : String} (hne : name ≠ "")
    (hsep : separator ∉ name.toList) (hopen : '[' ∉ name.toList) :
    (parse (text ++ String.singleton separator ++ name) (String.singleton separator)).steps =
      (parse text (String.singleton separator)).steps ++ [.key name] := by
  rw [parse_append, parse_name hne hsep hopen]

/-- An index in brackets is one more step. -/
theorem parse_append_index (text : String) {i : Nat} (hi : i < Text.countLimit)
    (hopen : separator ≠ '[') (hclose : separator ≠ ']') (hdigit : separator.isDigit = false) :
    (parse (text ++ "[" ++ toString i ++ "]") (String.singleton separator)).steps =
      (parse text (String.singleton separator)).steps ++ [.index i] := by
  have hchars : (text ++ "[" ++ toString i ++ "]").toList =
      text.toList ++ '[' :: (Nat.toDigits 10 i ++ [']']) := by
    simp
  have hnotMem : separator ∉ '[' :: (Nat.toDigits 10 i ++ [']']) := by
    intro h
    rcases List.mem_cons.mp h with rfl | h
    · exact hopen rfl
    rcases List.mem_append.mp h with h | h
    · rw [Text.isDigit_of_mem_toDigits h] at hdigit
      cases hdigit
    · exact hclose (List.mem_singleton.mp h)
  obtain ⟨front, last, htext, happend⟩ := Text.exists_split_append separator text.toList
  rw [steps_parse_singleton, steps_parse_singleton, hchars, happend _ hnotMem, htext,
    List.flatMap_append, List.flatMap_append, List.flatMap_singleton, List.flatMap_singleton,
    segmentSteps_append_index hi, List.append_assoc]

end EventPipeline.Path
