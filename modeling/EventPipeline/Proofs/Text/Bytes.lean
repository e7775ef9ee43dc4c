import EventPipeline.Proofs.Text.Lines
import EventPipeline.Proofs.Text.Occurrences

/-!
Texts by their bytes, and the places where they may be cut: before a byte that begins a character,
and at the end. What is searched for in the bytes is found where it stands in the text, so that a
text may be cut on both sides of it: texts, because a byte that begins a character is told from
those that go on with it (`locate?_utf8`), and characters of one byte, because that byte is in no
other character (`mem_utf8_iff`).
-/

namespace EventPipeline.Text

/-- The bytes of a text. -/
def utf8 (cs : List Char) : List UInt8 := cs.flatMap String.utf8EncodeChar

/-- The byte of a character below 128. -/
def byteOf (c : Char) : UInt8 := UInt8.ofNat c.toNat

/-- Whether a text may be cut before the byte with the number `i`. -/
def isBoundary (bytes : List UInt8) (i : Nat) : Bool :=
  i == bytes.length || bytes[i]?.any fun b => decide b.IsUTF8FirstByte

/-- The bytes from one number to another; nothing if the text may not be cut there. -/
def slice? (bytes : List UInt8) (i j : Nat) : Option (List UInt8) :=
  if i ≤ j ∧ isBoundary bytes i ∧ isBoundary bytes j then some ((bytes.take j).drop i) else none

/-- Puts others in the place of the bytes from one number to another; nothing if the text may not be
cut there. -/
def splice? (bytes : List UInt8) (i j : Nat) (new : List UInt8) : Option (List UInt8) :=
  if i ≤ j ∧ isBoundary bytes i ∧ isBoundary bytes j then
    some (bytes.take i ++ new ++ bytes.drop j)
  else none

/-- The number of the byte at which `pat` is found first. -/
def locate? (pat : List UInt8) : List UInt8 → Option Nat
  | [] => if pat = [] then some 0 else none
  | b :: bs => if pat.isPrefixOf (b :: bs) then some 0 else (locate? pat bs).map (· + 1)

/-- The number of the last of the bytes that is `b`. -/
def lastIdxOf? (b : UInt8) (bytes : List UInt8) : Option Nat :=
  (bytes.reverse.idxOf? b).map (bytes.length - 1 - ·)

/-! ### Characters and their bytes -/

@[simp] theorem utf8_nil : utf8 [] = [] := rfl

theorem utf8_cons (c : Char) (cs : List Char) :
    utf8 (c :: cs) = String.utf8EncodeChar c ++ utf8 cs :=
  List.flatMap_cons

theorem utf8_append (l r : List Char) : utf8 (l ++ r) = utf8 l ++ utf8 r := List.flatMap_append

theorem length_utf8_append (l r : List Char) :
    (utf8 (l ++ r)).length = (utf8 l).length + (utf8 r).length := by
  rw [utf8_append, List.length_append]

theorem utf8_toList (s : String) : utf8 s.toList = s.toUTF8.toList := (toList_toUTF8 s).symm

theorem toByteArray_utf8 (s : String) : (utf8 s.toList).toByteArray = s.toUTF8 := by
  rw [String.toUTF8_eq_toByteArray, ← String.utf8Encode_toList]
  rfl

theorem length_utf8_toList (s : String) : (utf8 s.toList).length = s.utf8ByteSize := by
  rw [← List.size_toByteArray, toByteArray_utf8, String.toUTF8_eq_toByteArray,
    String.size_toByteArray]

theorem utf8EncodeChar_of_lt {c : Char} (hc : c.toNat < 128) :
    String.utf8EncodeChar c = [byteOf c] := by
  have hle : c.toNat ≤ 127 := Nat.le_of_lt_succ hc
  simp [String.utf8EncodeChar, hle, byteOf]

/-- The first byte of a character is told from those behind it. -/
theorem exists_utf8EncodeChar_eq (c : Char) : ∃ b bs, String.utf8EncodeChar c = b :: bs ∧
    b.IsUTF8FirstByte ∧ ∀ x ∈ bs, ¬ x.IsUTF8FirstByte := by
  have hfirst : ∀ i (hi : i < (String.utf8EncodeChar c).length),
      (String.utf8EncodeChar c)[i].IsUTF8FirstByte ↔ i = 0 :=
    fun _ _ => UInt8.isUTF8FirstByte_getElem_utf8EncodeChar
  cases h : String.utf8EncodeChar c with
  | nil =>
    have hlength := String.length_utf8EncodeChar c
    have hpos := c.utf8Size_pos
    rw [h, List.length_nil] at hlength
    omega
  | cons b bs =>
    rw [h] at hfirst
    refine ⟨b, bs, rfl, (hfirst 0 (Nat.zero_lt_succ _)).mpr rfl, ?_⟩
    intro x hx
    obtain ⟨i, hi, rfl⟩ := List.mem_iff_getElem.mp hx
    exact fun hb => Nat.succ_ne_zero i ((hfirst (i + 1) (Nat.succ_lt_succ hi)).mp hb)

theorem exists_utf8_eq {cs : List Char} (h : cs ≠ []) :
    ∃ b bs, utf8 cs = b :: bs ∧ b.IsUTF8FirstByte := by
  obtain ⟨c, cs, rfl⟩ := List.exists_cons_of_ne_nil h
  obtain ⟨b, bs, hc, hb, -⟩ := exists_utf8EncodeChar_eq c
  exact ⟨b, bs ++ utf8 cs, by rw [utf8_cons, hc, List.cons_append], hb⟩

theorem utf8_ne_nil {cs : List Char} (h : cs ≠ []) : utf8 cs ≠ [] := by
  obtain ⟨b, bs, hbytes, -⟩ := exists_utf8_eq h
  rw [hbytes]
  exact List.cons_ne_nil b bs

theorem length_utf8_lt {cs : List Char} (hcs : cs ≠ []) (front : List Char) :
    (utf8 front).length < (utf8 (front ++ cs)).length := by
  have hpos := List.length_pos_iff.mpr (Text.utf8_ne_nil hcs)
  rw [length_utf8_append]
  omega

/-- No character begins another one. -/
theorem utf8EncodeChar_append_inj {c d : Char} {r s : List UInt8}
    (h : String.utf8EncodeChar c ++ r = String.utf8EncodeChar d ++ s) : c = d ∧ r = s := by
  have hdecode := congrArg (fun bytes : List UInt8 => bytes.toByteArray.utf8DecodeChar? 0) h
  simp only [List.toByteArray_append, ByteArray.utf8DecodeChar?_utf8EncodeChar_append] at hdecode
  obtain rfl := Option.some.inj hdecode
  exact ⟨rfl, List.append_cancel_left h⟩

theorem utf8_prefix_iff {p t : List Char} : utf8 p <+: utf8 t ↔ p <+: t := by
  constructor
  · intro h
    induction p generalizing t with
    | nil => exact List.nil_prefix
    | cons c p ih =>
      obtain ⟨rest, hrest⟩ := h
      cases t with
      | nil =>
        have hnil := List.append_eq_nil_iff.mp hrest
        exact absurd hnil.1 (utf8_ne_nil (List.cons_ne_nil c p))
      | cons d t =>
        rw [utf8_cons, utf8_cons, List.append_assoc] at hrest
        obtain ⟨rfl, htail⟩ := utf8EncodeChar_append_inj hrest
        exact (List.prefix_cons_inj c).mpr (ih ⟨rest, htail⟩)
  · rintro ⟨rest, rfl⟩
    exact ⟨utf8 rest, (utf8_append p rest).symm⟩

theorem utf8_injective {s t : List Char} (h : utf8 s = utf8 t) : s = t := by
  have hst : s <+: t := utf8_prefix_iff.mp (h ▸ List.prefix_rfl)
  have hts : t <+: s := utf8_prefix_iff.mp (h ▸ List.prefix_rfl)
  exact hst.eq_of_length_le hts.length_le

/-- A character of one byte is in a text where its byte is. -/
theorem mem_utf8_iff {c : Char} {cs : List Char} (hc : c.toNat < 128) :
    byteOf c ∈ utf8 cs ↔ c ∈ cs := by
  have hbyte : (byteOf c).toNat = c.toNat := Nat.mod_eq_of_lt (by omega)
  constructor
  · intro h
    obtain ⟨d, hd, hb⟩ := List.mem_flatMap.mp h
    have hdc := toNat_of_mem_utf8EncodeChar hb (hbyte ▸ hc)
    exact Char.toNat_inj.mp (hdc.trans hbyte) ▸ hd
  · intro h
    exact List.mem_flatMap.mpr ⟨c, h, utf8EncodeChar_of_lt hc ▸ List.mem_singleton_self _⟩

theorem byteOf_mem_utf8EncodeChar_iff {c d : Char} (hc : c.toNat < 128) :
    byteOf c ∈ String.utf8EncodeChar d ↔ d = c := by
  have hmem : byteOf c ∈ utf8 [d] ↔ c ∈ [d] := mem_utf8_iff hc
  rwa [utf8_cons, utf8_nil, List.append_nil, List.mem_singleton, eq_comm (a := c)] at hmem

theorem head?_utf8 {c : Char} {cs : List Char} (hc : c.toNat < 128) :
    (utf8 cs).head? = some (byteOf c) ↔ cs.head? = some c := by
  cases cs with
  | nil => simp
  | cons d cs =>
    obtain ⟨b, bs, hd, -⟩ := exists_utf8EncodeChar_eq d
    rw [utf8_cons, hd, List.cons_append, List.head?_cons, List.head?_cons, Option.some.injEq,
      Option.some.injEq]
    constructor
    · rintro rfl
      exact (byteOf_mem_utf8EncodeChar_iff hc).mp (hd ▸ List.mem_cons_self)
    · rintro rfl
      rw [utf8EncodeChar_of_lt hc] at hd
      exact (List.cons.inj hd).1.symm

theorem getLast?_utf8 {c : Char} {cs : List Char} (hc : c.toNat < 128) :
    (utf8 cs).getLast? = some (byteOf c) ↔ cs.getLast? = some c := by
  rcases List.eq_nil_or_concat cs with rfl | ⟨cs, d, rfl⟩
  · simp
  · have hne : String.utf8EncodeChar d ≠ [] := by
      obtain ⟨b, bs, hd, -⟩ := exists_utf8EncodeChar_eq d
      exact hd ▸ List.cons_ne_nil b bs
    rw [List.concat_eq_append, utf8_append, utf8_cons, utf8_nil, List.append_nil,
      List.getLast?_append_of_ne_nil _ hne, List.getLast?_concat, Option.some.injEq]
    constructor
    · intro h
      exact (byteOf_mem_utf8EncodeChar_iff hc).mp (List.mem_of_getLast? h)
    · rintro rfl
      rw [utf8EncodeChar_of_lt hc, List.getLast?_singleton]

/-! ### Cutting -/

theorem isBoundary_utf8 {cs l r : List Char} {i : Nat} (htext : cs = l ++ r)
    (hi : i = (utf8 l).length) : isBoundary (utf8 cs) i = true := by
  rw [htext, hi, utf8_append, isBoundary, Bool.or_eq_true]
  cases r with
  | nil => exact .inl (by simp)
  | cons c r =>
    obtain ⟨b, bs, hbytes, hb⟩ := exists_utf8_eq (List.cons_ne_nil c r)
    refine .inr ?_
    rw [hbytes, List.getElem?_append_right (Nat.le_refl _), Nat.sub_self]
    simp [hb]

section

variable {cs l m r : List Char} {i j : Nat} (htext : cs = l ++ (m ++ r)) (hi : i = (utf8 l).length)
  (hj : j = (utf8 l).length + (utf8 m).length)

include htext hi hj

theorem cut_utf8 : i ≤ j ∧ isBoundary (utf8 cs) i ∧ isBoundary (utf8 cs) j := by
  refine ⟨by omega, isBoundary_utf8 htext hi, ?_⟩
  refine isBoundary_utf8 (l := l ++ m) (r := r) ?_ ?_
  · rw [htext, List.append_assoc]
  · rw [hj, length_utf8_append]

theorem slice?_utf8 : slice? (utf8 cs) i j = some (utf8 m) := by
  rw [slice?, if_pos (cut_utf8 htext hi hj)]
  subst htext hi hj
  rw [utf8_append, utf8_append, ← List.append_assoc, ← List.length_append, List.take_left,
    List.drop_left]

theorem splice?_utf8 (new : List Char) :
    splice? (utf8 cs) i j (utf8 new) = some (utf8 (l ++ (new ++ r))) := by
  rw [splice?, if_pos (cut_utf8 htext hi hj)]
  subst htext hi hj
  simp only [utf8_append]
  rw [List.take_left, ← List.append_assoc (utf8 l) (utf8 m), ← List.length_append, List.drop_left,
    List.append_assoc]

end

/-! ### Searching -/

/-- Where no character begins, none is found. -/
theorem locate?_append {b : UInt8} {bs more : List UInt8} (hb : b.IsUTF8FirstByte)
    (hmore : ∀ x ∈ more, ¬ x.IsUTF8FirstByte) (rest : List UInt8) :
    locate? (b :: bs) (more ++ rest) = (locate? (b :: bs) rest).map (· + more.length) := by
  induction more with
  | nil => simp
  | cons x more ih =>
    obtain ⟨hx, hmore⟩ := List.forall_mem_cons.mp hmore
    have hne : (b == x) = false := beq_eq_false_iff_ne.mpr fun h => hx (h ▸ hb)
    rw [List.cons_append, locate?, List.isPrefixOf, hne, Bool.false_and, if_neg Bool.false_ne_true,
      ih hmore, Option.map_map]
    rfl

/-- A text is found in the bytes where it stands first. -/
theorem locate?_utf8 {pat : List Char} (hpat : pat ≠ []) (cs : List Char) :
    locate? (utf8 pat) (utf8 cs) =
      (find? pat [] cs).map fun found => (utf8 found.1.reverse).length := by
  induction cs with
  | nil =>
    rw [utf8_nil, locate?, if_neg (utf8_ne_nil hpat), find?, if_neg hpat]
    rfl
  | cons c cs ih =>
    obtain ⟨b, bs, hbytes, hb⟩ := exists_utf8_eq hpat
    obtain ⟨x, more, hc, -, hmore⟩ := exists_utf8EncodeChar_eq c
    have hchar : utf8 (c :: cs) = x :: (more ++ utf8 cs) := by rw [utf8_cons, hc, List.cons_append]
    by_cases hstart : pat <+: c :: cs
    · obtain ⟨rest, hrest⟩ := hstart
      have hprefix : (utf8 pat).isPrefixOf (x :: (more ++ utf8 cs)) = true :=
        List.isPrefixOf_iff_prefix.mpr (hchar ▸ utf8_prefix_iff.mpr ⟨rest, hrest⟩)
      rw [hchar, locate?, if_pos hprefix, ← hrest, find?_append hpat]
      rfl
    · have hprefix : ¬ (utf8 pat).isPrefixOf (x :: (more ++ utf8 cs)) = true := fun h =>
        hstart (utf8_prefix_iff.mp (hchar ▸ List.isPrefixOf_iff_prefix.mp h))
      rw [find?_cons_of_not_leading hstart, find?_eq_map, Option.map_map, hchar, locate?,
        if_neg hprefix, hbytes, locate?_append hb hmore, ← hbytes, ih, Option.map_map,
        Option.map_map]
      refine congrFun (congrArg _ (funext fun found => ?_)) _
      simp [utf8_cons, hc]
      omega

theorem idxOf?_append_cons {b : UInt8} {xs : List UInt8} (h : b ∉ xs) (ys : List UInt8) :
    (xs ++ b :: ys).idxOf? b = some xs.length := by
  induction xs with
  | nil => simp [List.idxOf?_cons]
  | cons x xs ih =>
    obtain ⟨hx, hxs⟩ := not_or.mp (mt List.mem_cons.mpr h)
    rw [List.cons_append, List.idxOf?_cons, if_neg (by simpa using Ne.symm hx), ih hxs]
    rfl

theorem lastIdxOf?_append_cons {b : UInt8} {ys : List UInt8} (h : b ∉ ys) (xs : List UInt8) :
    lastIdxOf? b (xs ++ b :: ys) = some xs.length := by
  have hreverse : (xs ++ b :: ys).reverse = ys.reverse ++ b :: xs.reverse := by simp
  rw [lastIdxOf?, hreverse, idxOf?_append_cons (mt List.mem_reverse.mp h)]
  simp

/-- A character of one byte is found where it stands first. -/
theorem idxOf?_utf8 {c : Char} {l : List Char} (hc : c.toNat < 128) (hl : c ∉ l) (r : List Char) :
    (utf8 (l ++ c :: r)).idxOf? (byteOf c) = some (utf8 l).length := by
  rw [utf8_append, utf8_cons, utf8EncodeChar_of_lt hc, List.singleton_append,
    idxOf?_append_cons (mt (mem_utf8_iff hc).mp hl)]

/-- A character of one byte is found where it stands last, also if others begin behind it. -/
theorem lastIdxOf?_utf8 {c : Char} {r : List Char} {bytes : List UInt8} (hc : c.toNat < 128)
    (hr : c ∉ r) (hbytes : byteOf c ∉ bytes) (l : List Char) :
    lastIdxOf? (byteOf c) (utf8 (l ++ c :: r) ++ bytes) = some (utf8 l).length := by
  rw [utf8_append, utf8_cons, utf8EncodeChar_of_lt hc, List.singleton_append, List.append_assoc,
    List.cons_append, lastIdxOf?_append_cons]
  rw [List.mem_append, not_or]
  exact ⟨mt (mem_utf8_iff hc).mp hr, hbytes⟩

theorem lastIdxOf?_utf8_of_notMem {c : Char} {cs : List Char} {bytes : List UInt8}
    (hc : c.toNat < 128) (hcs : c ∉ cs) (hbytes : byteOf c ∉ bytes) :
    lastIdxOf? (byteOf c) (utf8 cs ++ bytes) = none := by
  have hnotMem : byteOf c ∉ (utf8 cs ++ bytes).reverse := by
    rw [List.mem_reverse, List.mem_append, not_or]
    exact ⟨mt (mem_utf8_iff hc).mp hcs, hbytes⟩
  rw [lastIdxOf?, List.idxOf?_eq_none_iff.mpr hnotMem, Option.map_none]

end EventPipeline.Text
