import EventPipeline.Text.Search
import Mathlib.Data.List.Infix

/-!
Occurrences of a text in another, which `find?` and `split` take from the left without overlap:
`split` cuts a text where `find?` finds the first occurrence (`split_of_find?`), and replacing all
occurrences is joining the pieces by another text (`replaceAll_of_find?`). A character that is not in
the pattern cuts no occurrence in two, so that occurrences are counted on both of its sides apart
(`occurrences_append_cons`).
-/

namespace EventPipeline.Text

section

variable {d : Char} {l r : List Char}

theorem takeWhile_ne_append_cons (h : d ∉ l) : (l ++ d :: r).takeWhile (· != d) = l := by
  have hl : ∀ x ∈ l, (x != d) = true := fun x hx => bne_iff_ne.mpr fun hxd => h (hxd ▸ hx)
  rw [List.takeWhile_append_of_pos hl, List.takeWhile_cons_of_neg (by simp), List.append_nil]

theorem dropWhile_ne_append_cons (h : d ∉ l) : (l ++ d :: r).dropWhile (· != d) = d :: r := by
  have hl : ∀ x ∈ l, (x != d) = true := fun x hx => bne_iff_ne.mpr fun hxd => h (hxd ▸ hx)
  rw [List.dropWhile_append_of_pos hl, List.dropWhile_cons_of_neg (by simp)]

/-- There is one first place where a character stands. -/
theorem eq_and_eq_of_append_cons {l' r' : List Char} (hl : d ∉ l) (hl' : d ∉ l')
    (h : l ++ d :: r = l' ++ d :: r') : l = l' ∧ r = r' := by
  have htake := congrArg (List.takeWhile (· != d)) h
  have hdrop := congrArg (List.dropWhile (· != d)) h
  rw [takeWhile_ne_append_cons hl, takeWhile_ne_append_cons hl'] at htake
  rw [dropWhile_ne_append_cons hl, dropWhile_ne_append_cons hl'] at hdrop
  exact ⟨htake, (List.cons.inj hdrop).2⟩

/-- A text is cut at the first place where a character stands. -/
theorem eq_takeWhile_append {x : Char} (h : l.dropWhile (· != d) = x :: r) :
    l = l.takeWhile (· != d) ++ d :: r ∧ d ∉ l.takeWhile (· != d) := by
  have hx := List.head?_dropWhile_not (· != d) l
  rw [h] at hx
  obtain rfl : x = d := by simpa using hx
  refine ⟨?_, fun hd => ?_⟩
  · rw [← h, List.takeWhile_append_dropWhile]
  · simpa using List.all_eq_true.mp List.all_takeWhile _ hd

end

variable {pat text pre post : List Char}

/-- What stands before the place where a search starts is only carried along. -/
theorem find?_eq_map (pat before text : List Char) :
    find? pat before text = (find? pat [] text).map fun found => (found.1 ++ before, found.2) := by
  induction text generalizing before with
  | nil =>
    simp only [find?]
    split <;> rfl
  | cons c cs ih =>
    simp only [find?]
    split
    · rfl
    · rw [ih, ih [c], Option.map_map]
      exact congrFun (congrArg _ (funext fun found => by simp)) _

/-- A text is cut at an occurrence. -/
theorem exists_of_find? {before : List Char} (h : find? pat before text = some (pre, post)) :
    ∃ gap, pre = gap.reverse ++ before ∧ text = gap ++ pat ++ post := by
  rw [find?_eq_map, Option.map_eq_some_iff] at h
  obtain ⟨⟨gap, post'⟩, hfind, hpair⟩ := h
  obtain ⟨rfl, rfl⟩ := Prod.mk.inj hpair
  exact ⟨gap.reverse, by simp, find?_eq_some hfind⟩

theorem dropLeading?_eq_none_iff : dropLeading? pat text = none ↔ ¬ pat <+: text := by
  rw [Option.eq_none_iff_forall_ne_some]
  simp only [ne_eq, dropLeading?_eq_some]
  exact ⟨fun h ⟨rest, hrest⟩ => h rest hrest.symm, fun h rest hrest => h ⟨rest, hrest.symm⟩⟩

theorem find?_eq_none_iff {before : List Char} :
    find? pat before text = none ↔ ¬ pat <:+: text := by
  induction text generalizing before with
  | nil => simp [find?]
  | cons c cs ih =>
    rw [find?, List.infix_cons_iff]
    cases h : dropLeading? pat (c :: cs) with
    | some rest =>
      have hstarts : pat <+: c :: cs := ⟨rest, (dropLeading?_eq_some.mp h).symm⟩
      simp [hstarts]
    | none =>
      have hstarts := dropLeading?_eq_none_iff.mp h
      simp [ih, hstarts]

/-- A text that starts with the pattern has its first occurrence there. -/
theorem find?_append (hpat : pat ≠ []) (before rest : List Char) :
    find? pat before (pat ++ rest) = some (before, rest) := by
  obtain ⟨p, ps, rfl⟩ := List.exists_cons_of_ne_nil hpat
  rw [List.cons_append, find?, ← List.cons_append, dropLeading?_eq_some.mpr rfl]

theorem find?_cons_of_not_leading {c : Char} {before : List Char} (h : ¬ pat <+: c :: text) :
    find? pat before (c :: text) = find? pat (c :: before) text := by
  rw [find?, dropLeading?_eq_none_iff.mpr h]

section

variable {d : Char} (hd : d ∉ pat)

include hd

theorem dropLeading?_append_cons (u v : List Char) :
    dropLeading? pat (u ++ d :: v) = (dropLeading? pat u).map (· ++ d :: v) := by
  induction pat generalizing u with
  | nil => rfl
  | cons p ps ih =>
    obtain ⟨hp, hps⟩ := not_or.mp (mt List.mem_cons.mpr hd)
    cases u with
    | nil => simp [dropLeading?, Ne.symm hp]
    | cons c cs =>
      simp only [List.cons_append, dropLeading?]
      split
      · exact ih hps cs
      · rfl

/-- The first occurrence is before a character that the pattern does not have, or else behind
it. -/
theorem find?_append_cons (before u v : List Char) :
    find? pat before (u ++ d :: v) =
      match find? pat before u with
      | some (pre, post) => some (pre, post ++ d :: v)
      | none => find? pat (d :: (u.reverse ++ before)) v := by
  induction u generalizing before with
  | nil =>
    cases pat with
    | nil => rfl
    | cons p ps =>
      have hstart : dropLeading? (p :: ps) (d :: v) = none := dropLeading?_append_cons hd [] v
      simp only [List.nil_append, find?, hstart, reduceCtorEq, if_false, List.reverse_nil]
  | cons c cs ih =>
    rw [List.cons_append, find?, ← List.cons_append, dropLeading?_append_cons hd, find?]
    cases dropLeading? pat (c :: cs) with
    | some rest => rfl
    | none =>
      rw [Option.map_none, ih]
      simp

end

theorem pieces_ne_nil (sep : List Char) (skip : Nat) (piece cs : List Char) :
    pieces sep skip piece cs ≠ [] := by
  induction cs generalizing skip piece with
  | nil => simp [pieces]
  | cons c cs ih =>
    cases skip with
    | succ skip => exact ih skip piece
    | zero =>
      rw [pieces]
      split
      · exact List.cons_ne_nil _ _
      · exact ih 0 _

theorem pieces_of_find?_eq_none {piece : List Char} (h : find? pat piece text = none) :
    pieces pat 0 piece text = [piece.reverse ++ text] := by
  induction text generalizing piece with
  | nil => simp [pieces]
  | cons c cs ih =>
    rw [find?] at h
    split at h
    · cases h
    · next hstart => rw [pieces, hstart, ih h]; simp

theorem pieces_of_find? (hpat : pat ≠ []) {piece : List Char}
    (h : find? pat piece text = some (pre, post)) :
    pieces pat 0 piece text = pre.reverse :: split pat post := by
  induction text generalizing piece with
  | nil => simp [find?, hpat] at h
  | cons c cs ih =>
    rw [find?] at h
    split at h
    · next rest hstart =>
      obtain ⟨rfl, rfl⟩ := Prod.mk.inj (Option.some.inj h)
      obtain ⟨p, ps, rfl⟩ := List.exists_cons_of_ne_nil hpat
      obtain ⟨rfl, rfl⟩ := List.cons.inj (dropLeading?_eq_some.mp hstart)
      rw [pieces, hstart]
      change _ :: pieces _ ps.length [] (ps ++ rest) = _
      rw [pieces_skip _ _ _ _ (by simp), List.drop_left, split]
    · next hstart =>
      rw [pieces, hstart]
      exact ih h

/-- A text without the pattern is one piece. -/
theorem split_of_find?_eq_none (h : find? pat [] text = none) : split pat text = [text] :=
  pieces_of_find?_eq_none h

/-- The first piece ends at the first occurrence. -/
theorem split_of_find? (hpat : pat ≠ []) (h : find? pat [] text = some (pre, post)) :
    split pat text = pre.reverse :: split pat post :=
  pieces_of_find? hpat h

/-- A text with another text in the place of each occurrence of the non-empty `pat`. -/
def replaceAll (pat new text : List Char) : List Char := new.intercalate (split pat text)

theorem replaceAll_of_find?_eq_none {new : List Char} (h : find? pat [] text = none) :
    replaceAll pat new text = text := by
  rw [replaceAll, split_of_find?_eq_none h, List.intercalate_singleton]

/-- The first occurrence is replaced, and then those behind it. -/
theorem replaceAll_of_find? {new : List Char} (hpat : pat ≠ [])
    (h : find? pat [] text = some (pre, post)) :
    replaceAll pat new text = pre.reverse ++ new ++ replaceAll pat new post := by
  have hpieces : split pat post ≠ [] := pieces_ne_nil pat 0 [] post
  rw [replaceAll, split_of_find? hpat h, List.intercalate_cons_of_ne_nil hpieces, replaceAll]

section

variable {c : Char}

/-- What is split off a text depends on what follows for its last piece only. -/
theorem exists_pieces_append (c : Char) (piece a : List Char) :
    ∃ front last, ∀ b, pieces [c] 0 piece (a ++ b) = front ++ pieces [c] 0 last b := by
  induction a generalizing piece with
  | nil => exact ⟨[], piece, fun b => rfl⟩
  | cons d a ih =>
    by_cases hd : c = d
    · subst hd
      obtain ⟨front, last, h⟩ := ih []
      refine ⟨piece.reverse :: front, last, fun b => ?_⟩
      have hstart : dropLeading? [c] (c :: (a ++ b)) = some (a ++ b) := dropLeading?_eq_some.mpr rfl
      rw [List.cons_append, pieces, hstart]
      exact congrArg _ (h b)
    · obtain ⟨front, last, h⟩ := ih (d :: piece)
      refine ⟨front, last, fun b => ?_⟩
      have hstart : dropLeading? [c] (d :: (a ++ b)) = none := by simp [dropLeading?, hd]
      rw [List.cons_append, pieces, hstart]
      exact h b

/-- No piece has the separator in it. -/
theorem notMem_of_mem_pieces {piece a p : List Char} (h : c ∉ piece)
    (hp : p ∈ pieces [c] 0 piece a) : c ∉ p := by
  induction a generalizing piece with
  | nil =>
    rw [pieces, List.mem_singleton] at hp
    rwa [hp, List.mem_reverse]
  | cons d a ih =>
    by_cases hd : c = d
    · subst hd
      have hstart : dropLeading? [c] (c :: a) = some a := dropLeading?_eq_some.mpr rfl
      rw [pieces, hstart] at hp
      rcases List.mem_cons.mp hp with rfl | hp
      · rwa [List.mem_reverse]
      · exact ih List.not_mem_nil hp
    · have hstart : dropLeading? [c] (d :: a) = none := by simp [dropLeading?, hd]
      rw [pieces, hstart] at hp
      exact ih (List.not_mem_cons_of_ne_of_not_mem hd h) hp

theorem notMem_of_mem_split {a p : List Char} (h : p ∈ split [c] a) : c ∉ p :=
  notMem_of_mem_pieces List.not_mem_nil h

theorem length_pieces (c : Char) (piece a : List Char) :
    (pieces [c] 0 piece a).length = a.count c + 1 := by
  induction a generalizing piece with
  | nil => rfl
  | cons d a ih =>
    by_cases hd : c = d
    · subst hd
      have hstart : dropLeading? [c] (c :: a) = some a := dropLeading?_eq_some.mpr rfl
      rw [pieces, hstart, List.count_cons_self]
      exact congrArg (· + 1) (ih [])
    · have hstart : dropLeading? [c] (d :: a) = none := by simp [dropLeading?, hd]
      rw [pieces, hstart, List.count_cons_of_ne (Ne.symm hd)]
      exact ih (d :: piece)

/-- Each separator makes one more piece. -/
theorem length_split (c : Char) (a : List Char) : (split [c] a).length = a.count c + 1 :=
  length_pieces c [] a

theorem find?_eq_none_of_notMem {b : List Char} (h : c ∉ b) : find? [c] [] b = none :=
  find?_eq_none_iff.mpr fun hin => h (List.IsInfix.subset hin List.mem_cons_self)

/-- A text without the separator is part of the last piece. -/
theorem exists_split_append (c : Char) (a : List Char) :
    ∃ front last, split [c] a = front ++ [last] ∧
      ∀ b, c ∉ b → split [c] (a ++ b) = front ++ [last ++ b] := by
  obtain ⟨front, last, h⟩ := exists_pieces_append c [] a
  refine ⟨front, last.reverse, ?_, fun b hb => ?_⟩
  · have hnil := h []
    rwa [List.append_nil] at hnil
  · have hnone : find? [c] last b = none := by
      rw [find?_eq_map, find?_eq_none_of_notMem hb, Option.map_none]
    rw [split, h, pieces_of_find?_eq_none hnone]

end

/-- How often a text occurs in another, counted from the left without overlap. -/
def occurrences (pat text : List Char) : Nat := (split pat text).length - 1

theorem occurrences_of_find?_eq_none {before : List Char} (h : find? pat before text = none) :
    occurrences pat text = 0 := by
  rw [find?_eq_map, Option.map_eq_none_iff] at h
  rw [occurrences, split_of_find?_eq_none h]
  rfl

theorem occurrences_of_find? (hpat : pat ≠ []) {before : List Char}
    (h : find? pat before text = some (pre, post)) :
    occurrences pat text = occurrences pat post + 1 := by
  rw [find?_eq_map, Option.map_eq_some_iff] at h
  obtain ⟨⟨pre', post'⟩, h, hpair⟩ := h
  obtain ⟨-, rfl⟩ := Prod.mk.inj hpair
  have hpos := List.length_pos_iff.mpr (pieces_ne_nil pat 0 [] post')
  rw [occurrences, split_of_find? hpat h, List.length_cons, occurrences, split]
  omega

theorem occurrences_eq_zero_iff (hpat : pat ≠ []) : occurrences pat text = 0 ↔ ¬ pat <:+: text := by
  have hnone : find? pat [] text = none ↔ ¬ pat <:+: text := find?_eq_none_iff
  rw [← hnone]
  refine ⟨fun h => ?_, occurrences_of_find?_eq_none⟩
  cases hfind : find? pat [] text with
  | none => rfl
  | some found => rw [occurrences_of_find? hpat hfind] at h; omega

theorem occurrences_append_cons (hpat : pat ≠ []) {d : Char} (hd : d ∉ pat) (u v : List Char) :
    occurrences pat (u ++ d :: v) = occurrences pat u + occurrences pat v := by
  induction hlen : u.length using Nat.strong_induction_on generalizing u with
  | _ n ih =>
    subst hlen
    have happend := find?_append_cons hd [] u v
    cases hu : find? pat [] u with
    | none =>
      rw [hu] at happend
      rw [occurrences_of_find?_eq_none hu, Nat.zero_add]
      cases hv : find? pat (d :: (u.reverse ++ [])) v with
      | none =>
        rw [occurrences_of_find?_eq_none hv, occurrences_of_find?_eq_none (happend.trans hv)]
      | some found =>
        rw [occurrences_of_find? hpat hv, occurrences_of_find? hpat (happend.trans hv)]
    | some found =>
      obtain ⟨pre, post⟩ := found
      rw [hu] at happend
      have hlt : post.length < u.length := by
        have := find?_length_le hu
        have := List.length_pos_iff.mpr hpat
        omega
      rw [occurrences_of_find? hpat happend, occurrences_of_find? hpat hu, ih _ hlt post rfl]
      omega

end EventPipeline.Text
