import EventPipeline.Text.Lines

/-!
A text without line ends, followed by a line feed, is one line of a stream (`lines_toUTF8`). Bytes
below 128 stand for themselves in UTF-8, so a line end is found in the bytes of a text only where
the text has one.
-/

namespace EventPipeline.Text

theorem loop_toList (bytes : ByteArray) (i : Nat) (done : List UInt8) :
    ByteArray.toList.loop bytes i done = done.reverse ++ bytes.data.toList.drop i := by
  induction i, done using ByteArray.toList.loop.induct bytes with
  | case1 i done hi ih =>
    have hlen : i < bytes.data.toList.length := hi
    have hget : bytes.get! i = bytes.data.toList[i] := by
      rw [Array.getElem_toList]
      exact getElem!_pos bytes.data i hi
    rw [ByteArray.toList.loop, if_pos hi, ih, List.drop_eq_getElem_cons hlen, hget,
      List.reverse_cons, List.append_assoc]
    rfl
  | case2 i done hi =>
    have hlen : bytes.data.toList.length ≤ i := Nat.le_of_not_lt hi
    rw [ByteArray.toList.loop, if_neg hi, List.drop_eq_nil_of_le hlen, List.append_nil]

theorem toList_toUTF8 (s : String) : s.toUTF8.toList = s.toList.flatMap String.utf8EncodeChar := by
  rw [ByteArray.toList, loop_toList, String.toUTF8_eq_toByteArray, ← String.utf8Encode_toList,
    List.utf8Encode, List.toList_data_toByteArray]
  rfl

/-- A byte below 128 is the only one of its character. -/
theorem toNat_of_mem_utf8EncodeChar {c : Char} {b : UInt8} (h : b ∈ String.utf8EncodeChar c)
    (hb : b.toNat < 128) : c.toNat = b.toNat := by
  have hc : c.val.toNat = c.toNat := rfl
  unfold String.utf8EncodeChar at h
  simp only [hc] at h
  split at h
  · rw [List.mem_singleton.mp h, UInt8.toNat_ofNat']
    omega
  · exfalso
    split at h
    · simp only [List.mem_cons, List.not_mem_nil, or_false] at h
      rcases h with rfl | rfl <;> rw [UInt8.toNat_ofNat'] at hb <;> omega
    · split at h
      · simp only [List.mem_cons, List.not_mem_nil, or_false] at h
        rcases h with rfl | rfl | rfl <;> rw [UInt8.toNat_ofNat'] at hb <;> omega
      · simp only [List.mem_cons, List.not_mem_nil, or_false] at h
        rcases h with rfl | rfl | rfl | rfl <;> rw [UInt8.toNat_ofNat'] at hb <;> omega

theorem mem_of_mem_toUTF8 {s : String} {b : UInt8} (h : b ∈ s.toUTF8.toList) (hb : b.toNat < 128) :
    Char.ofNat b.toNat ∈ s.toList := by
  rw [toList_toUTF8] at h
  obtain ⟨c, hc, hbc⟩ := List.mem_flatMap.mp h
  rwa [← toNat_of_mem_utf8EncodeChar hbc hb, Char.ofNat_toNat]

theorem toList_toUTF8_line (s : String) : (s ++ "\n").toUTF8.toList = s.toUTF8.toList ++ [10] := by
  rw [toList_toUTF8, toList_toUTF8, String.toList_append, List.flatMap_append]
  rfl

theorem dropReturn_eq {line : List UInt8} (h : 13 ∉ line) : dropReturn line = line := by
  unfold dropReturn
  split
  · exact absurd List.mem_cons_self h
  · rfl

/-- The line that is being read ends at the next line feed. -/
theorem linesFrom_append {bytes : List UInt8} (h : 10 ∉ bytes) (line : List UInt8)
    (done : List (List UInt8)) (rest : List UInt8) :
    linesFrom line done (bytes ++ 10 :: rest) =
      linesFrom [] ((dropReturn (bytes.reverse ++ line)).reverse :: done) rest := by
  induction bytes generalizing line with
  | nil => rw [List.nil_append, linesFrom, List.reverse_nil, List.nil_append]
  | cons b bytes ih =>
    have hb : b ≠ 10 := fun hb => h (hb ▸ List.mem_cons_self)
    rw [List.cons_append, linesFrom, ih fun hm => h (List.mem_cons_of_mem _ hm), List.reverse_cons,
      List.append_assoc]
    · rfl
    · exact hb

variable {s : String}

theorem lines_toUTF8 (hfeed : '\n' ∉ s.toList) (hreturn : '\r' ∉ s.toList) :
    lines (s ++ "\n").toUTF8 = [s.toUTF8] := by
  have hten : 10 ∉ s.toUTF8.toList := fun h => hfeed (mem_of_mem_toUTF8 h (by decide))
  have hthirteen : 13 ∉ s.toUTF8.toList := fun h => hreturn (mem_of_mem_toUTF8 h (by decide))
  have hdata : s.toUTF8.toList = s.toUTF8.data.toList := loop_toList s.toUTF8 0 []
  rw [lines, toList_toUTF8_line, linesFrom_append hten, List.append_nil,
    dropReturn_eq fun h => hthirteen (List.mem_reverse.mp h), List.reverse_reverse, hdata]
  rfl

end EventPipeline.Text
