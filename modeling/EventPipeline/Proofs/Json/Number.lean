import EventPipeline.Json.Writer
import EventPipeline.Proofs.Binary64.Shortest
import EventPipeline.Proofs.Json.Numeral

/-!
How numbers are written: an integer by its digits (`Number.integer?_numeral`), a finite double by
its shortest digits, which it holds, in whichever of the two forms they are written
(`Binary64.holds_decimal`).
-/

namespace EventPipeline

open Json

namespace Binary64

/-- The digits around the point, with a zero after it where no digit is left. -/
def pointed (digits : List Char) (whole : ℤ) : List Char × List Char :=
  let (w, f) := positional digits whole
  (w, if f = [] then ['0'] else f)

/-- How a finite double is written. -/
def numeral (x : Binary64) : Numeral :=
  let d := x.shortest .toEven
  let digits := digitChars d.digits
  let leading : ℤ := digits.length + d.exponent - 1
  if x.isZero then ⟨x.isNegative, ['0'], ['0'], none⟩
  else if writtenPositionally leading then
    let (w, f) := pointed digits (leading + 1)
    ⟨x.isNegative, w, f, none⟩
  else ⟨x.isNegative, digits.take 1, digits.drop 1, some leading⟩

theorem numeral_of_isZero {x : Binary64} (h : x.isZero = true) :
    x.numeral = ⟨x.isNegative, ['0'], ['0'], none⟩ := if_pos h

theorem numeral_positional {x : Binary64} (h : ¬ x.isZero = true) {digits : List Char}
    (hd : digitChars (x.shortest .toEven).digits = digits) {leading : ℤ}
    (hl : digits.length + (x.shortest .toEven).exponent - 1 = leading)
    (hw : writtenPositionally leading = true) :
    x.numeral =
      ⟨x.isNegative, (pointed digits (leading + 1)).1, (pointed digits (leading + 1)).2, none⟩ := by
  simp only [numeral, if_neg h, hd, hl, if_pos hw]

theorem numeral_scientific {x : Binary64} (h : ¬ x.isZero = true) {digits : List Char}
    (hd : digitChars (x.shortest .toEven).digits = digits) {leading : ℤ}
    (hl : digits.length + (x.shortest .toEven).exponent - 1 = leading)
    (hw : ¬ writtenPositionally leading = true) :
    x.numeral = ⟨x.isNegative, digits.take 1, digits.drop 1, some leading⟩ := by
  simp only [numeral, if_neg h, hd, hl, if_neg hw]

theorem negative_numeral (x : Binary64) : x.numeral.negative = x.isNegative := by
  simp only [numeral]
  split
  · rfl
  · split <;> rfl

theorem pointed_ne_nil (digits : List Char) (whole : ℤ) : (pointed digits whole).2 ≠ [] := by
  simp only [pointed]
  split
  · exact List.cons_ne_nil _ _
  · next h => exact h

theorem toList_scientificText {x : Binary64} (hx : x.isFinite = true) :
    x.scientificText.toList = x.numeral.chars := by
  rw [scientificText, hx]
  by_cases hzero : x.isZero = true
  · simp only [numeral_of_isZero hzero, hzero, if_true, Bool.not_true, Bool.false_eq_true, if_false,
      String.toList_ofList, Numeral.chars, signChars, List.append_assoc, Option.elim_none]
    rfl
  · generalize hd : digitChars (x.shortest .toEven).digits = digits
    generalize hl : (digits.length + (x.shortest .toEven).exponent - 1 : ℤ) = leading
    by_cases hw : writtenPositionally leading = true
    · rw [numeral_positional hzero hd hl hw, Numeral.chars]
      simp only [hzero, hd, hl, hw, if_true, Bool.not_true, Bool.false_eq_true, if_false,
        String.toList_ofList, if_neg (pointed_ne_nil digits (leading + 1)), Option.elim_none,
        List.append_nil, List.append_assoc]
      rfl
    · rw [numeral_scientific hzero hd hl hw, Numeral.chars]
      simp only [hzero, hd, hl, hw, Bool.not_true, Bool.false_eq_true, if_false,
        String.toList_ofList, Option.elim_some, List.append_assoc, List.drop_eq_nil_iff]
      rfl

theorem pointed_of_nonpos {digits : List Char} {whole : ℤ} (hw : whole ≤ 0) (hne : digits ≠ []) :
    pointed digits whole = (['0'], List.replicate (-whole).toNat '0' ++ digits) := by
  have : List.replicate (-whole).toNat '0' ++ digits ≠ [] := by simp [hne]
  simp only [pointed, positional, if_pos hw, if_neg this]

theorem pointed_of_lt {digits : List Char} {n : ℕ} (hn : 0 < n) (hlt : n < digits.length) :
    pointed digits n = (digits.take n, digits.drop n) := by
  have hdrop : digits.drop n ≠ [] := by
    rw [ne_eq, List.drop_eq_nil_iff]
    omega
  have hw : ¬ (n : ℤ) ≤ 0 := by omega
  simp only [pointed, positional, if_neg hw, Int.toNat_natCast, if_neg hdrop,
    Nat.sub_eq_zero_of_le hlt.le, List.replicate_zero, List.append_nil]

theorem pointed_of_ge {digits : List Char} {n : ℕ} (hn : 0 < n) (hge : digits.length ≤ n) :
    pointed digits n = (digits ++ List.replicate (n - digits.length) '0', ['0']) := by
  have hw : ¬ (n : ℤ) ≤ 0 := by omega
  simp only [pointed, positional, if_neg hw, Int.toNat_natCast, List.take_of_length_le hge,
    List.drop_of_length_le hge, if_true]

/-- Of all digits that are written around the point, only those of the number count. -/
theorem ofDigitChars_pointed {n : ℕ} {whole : ℤ} (hn : n < 10 ^ 18) (hw : whole ≤ 16) :
    ∃ zeros : ℕ,
      Nat.ofDigitChars 10 ((pointed (Nat.toDigits 10 n) whole).1 ++
        (pointed (Nat.toDigits 10 n) whole).2) 0 = n * 10 ^ zeros ∧ n * 10 ^ zeros < 10 ^ 18 ∧
      whole - (Nat.toDigits 10 n).length =
        zeros - (pointed (Nat.toDigits 10 n) whole).2.length := by
  rcases le_or_gt whole 0 with h | h
  · rw [pointed_of_nonpos h Nat.toDigits_ne_nil]
    refine ⟨0, ?_, by omega, ?_⟩
    · have hzero : Nat.ofDigitChars 10 ['0'] 0 = 0 := rfl
      rw [Nat.ofDigitChars_append, hzero, Nat.ofDigitChars_append,
        Nat.ofDigitChars_replicate_zero, Nat.mul_zero, Nat.ofDigitChars_ten_toDigits, pow_zero,
        mul_one]
    · rw [List.length_append, List.length_replicate]
      omega
  · obtain ⟨k, rfl⟩ := Int.eq_ofNat_of_zero_le h.le
    rcases lt_or_ge k (Nat.toDigits 10 n).length with hk | hk
    · rw [pointed_of_lt (by omega) hk]
      refine ⟨0, ?_, by omega, ?_⟩
      · rw [List.take_append_drop, Nat.ofDigitChars_ten_toDigits, pow_zero, mul_one]
      · rw [List.length_drop]
        omega
    · rw [pointed_of_ge (by omega) hk]
      refine ⟨k - (Nat.toDigits 10 n).length + 1, ?_, ?_, ?_⟩
      · have hzero (m : ℕ) : Nat.ofDigitChars 10 ['0'] m = 10 * m := by
          rw [Nat.ofDigitChars_cons]
          rfl
        rw [Nat.ofDigitChars_append, hzero, Nat.ofDigitChars_append,
          Nat.ofDigitChars_ten_toDigits, Nat.ofDigitChars_replicate_zero, pow_succ]
        ring
      · have hlt : n < 10 ^ (Nat.toDigits 10 n).length :=
          (Nat.length_toDigits_le_iff (by decide) Nat.length_toDigits_pos).mp le_rfl
        calc n * 10 ^ (k - (Nat.toDigits 10 n).length + 1)
            < 10 ^ (Nat.toDigits 10 n).length * 10 ^ (k - (Nat.toDigits 10 n).length + 1) := by
              gcongr
          _ = 10 ^ (k + 1) := by rw [← pow_add]; congr 1; omega
          _ ≤ 10 ^ 18 := Nat.pow_le_pow_right (by decide) (by omega)
      · rw [List.length_singleton]
        omega

theorem proper_pointed {digits : List Char} (hd : ∀ c ∈ digits, c.isDigit = true)
    (hne : digits ≠ []) (hl : digits.head? ≠ some '0') (negative : Bool) (whole : ℤ) :
    Numeral.Proper ⟨negative, (pointed digits whole).1, (pointed digits whole).2, none⟩ := by
  have hzeros {n : ℕ} {c : Char} (hc : c ∈ List.replicate n '0') : c.isDigit = true :=
    List.eq_of_mem_replicate hc ▸ rfl
  have hzero {c : Char} (hc : c ∈ ['0']) : c.isDigit = true := List.mem_singleton.mp hc ▸ rfl
  rcases le_or_gt whole 0 with h | h
  · rw [pointed_of_nonpos h hne]
    refine ⟨fun c => hzero, fun c hc => ?_, List.cons_ne_nil _ _, fun _ => rfl⟩
    exact (List.mem_append.mp hc).elim hzeros (hd c)
  · obtain ⟨k, rfl⟩ := Int.eq_ofNat_of_zero_le h.le
    rcases lt_or_ge k digits.length with hk | hk
    · rw [pointed_of_lt (by omega) hk]
      refine ⟨fun c hc => hd c (List.mem_of_mem_take hc), fun c hc => hd c (List.mem_of_mem_drop hc),
        ?_, fun hz => absurd ?_ hl⟩
      · simp only [ne_eq, List.take_eq_nil_iff, hne, or_false]
        omega
      · rw [← hz, List.head?_take, if_neg (by omega)]
    · rw [pointed_of_ge (by omega) hk]
      refine ⟨fun c hc => (List.mem_append.mp hc).elim (hd c) hzeros, fun c => hzero,
        List.append_ne_nil_of_left_ne_nil hne _, fun hz => absurd ?_ hl⟩
      rw [← hz, List.head?_append]
      cases digits with
      | nil => exact absurd rfl hne
      | cons d ds => rfl

theorem isZero_iff {x : Binary64} : x.isZero = true ↔ x.significand = 0 := by
  have hm := x.magnitude_eq
  rw [isZero, beq_iff_eq]
  constructor
  · omega
  · intro hs
    have hscale : x.scale = -1074 := by
      refine le_antisymm ?_ x.scale_ge
      by_contra hlt
      have hbit := (hiddenBit_le_significand (not_le.mp hlt)).1
      rw [hs] at hbit
      cases hbit
    rw [hm, hscale, hs]
    rfl

theorem significand_pos {x : Binary64} (hx : ¬ x.isZero = true) : 0 < x.significand :=
  Nat.pos_of_ne_zero (mt isZero_iff.mpr hx)

theorem proper_numeral {x : Binary64} (hx : x.isFinite = true) : x.numeral.Proper := by
  by_cases hzero : x.isZero = true
  · rw [numeral_of_isZero hzero]
    refine ⟨?_, ?_, List.cons_ne_nil _ _, fun _ => rfl⟩ <;>
      exact fun c hc => List.mem_singleton.mp hc ▸ rfl
  · obtain ⟨-, hpos, -⟩ := holds_shortest hx (significand_pos hzero) .toEven
    generalize hd : digitChars (x.shortest .toEven).digits = digits
    generalize hl : (digits.length + (x.shortest .toEven).exponent - 1 : ℤ) = leading
    have hdigits : ∀ c ∈ digits, c.isDigit = true :=
      fun c hc => Text.isDigit_of_mem_toDigits (hd.symm ▸ hc)
    have hne : digits ≠ [] := hd ▸ Nat.toDigits_ne_nil
    have hhead : digits.head? ≠ some '0' := hd ▸ Text.head?_toDigits (Nat.ne_of_gt hpos)
    by_cases hw : writtenPositionally leading = true
    · rw [numeral_positional hzero hd hl hw]
      exact proper_pointed hdigits hne hhead _ _
    · rw [numeral_scientific hzero hd hl hw]
      refine ⟨fun c hc => hdigits c (List.mem_of_mem_take hc),
        fun c hc => hdigits c (List.mem_of_mem_drop hc), ?_, fun hz => absurd ?_ hhead⟩
      · simp [hne]
      · rw [← hz, List.head?_take, if_neg (by decide)]

theorem zero_eq {x : Binary64} (hx : x.isZero = true) : zero x.isNegative = x := by
  have hm : x.magnitude = 0 := by simpa [isZero] using hx
  rw [zero, ← hm, ofMagnitude_magnitude]

/-- A numeral with a fraction or an exponent is no integer. -/
theorem integer?_numeral (x : Binary64) : x.numeral.integer? = none := by
  have hwhole : x.numeral.isWhole = false := by
    simp only [numeral]
    rw [Numeral.isWhole, Bool.and_eq_false_iff]
    split
    · exact .inl rfl
    · split
      · exact .inl (by simpa using pointed_ne_nil _ _)
      · exact .inr rfl
  rw [Numeral.integer?, hwhole]
  rfl

/-- What is written for a double, its shortest digits brought to their place, is held by it. -/
theorem holds_decimal {x : Binary64} (hx : x.isFinite = true) (hzero : ¬ x.isZero = true) :
    x.Holds (x.numeral.decimal.digits * 10 ^ x.numeral.decimal.exponent) ∧
      0 < x.numeral.decimal.digits ∧ x.numeral.decimal.digits < 10 ^ 18 := by
  obtain ⟨hv, hpos, hlt⟩ := holds_shortest hx (significand_pos hzero) .toEven
  generalize hn : (x.shortest .toEven).digits = n at *
  generalize he : (x.shortest .toEven).exponent = e at *
  have hd : digitChars (x.shortest .toEven).digits = Nat.toDigits 10 n := congrArg _ hn
  generalize hl : ((Nat.toDigits 10 n).length + e - 1 : ℤ) = leading
  by_cases hw : writtenPositionally leading = true
  · have hleading : leading ≤ 15 := by
      simp only [writtenPositionally, Bool.and_eq_true, decide_eq_true_eq] at hw
      exact hw.2
    obtain ⟨zeros, hvalue, hlt', hplaces⟩ := ofDigitChars_pointed hlt
      (show leading + 1 ≤ 16 by omega)
    rw [numeral_positional hzero hd (he.symm ▸ hl) hw,
      Numeral.decimal_of_lt hvalue (hlt'.trans (by decide))]
    have he' : e = zeros + (0 - (pointed (Nat.toDigits 10 n) (leading + 1)).2.length) := by omega
    rw [he', zpow_add₀ (by norm_num), ← mul_assoc, zpow_natCast] at hv
    refine ⟨?_, by positivity, hlt'⟩
    simpa only [Option.getD_none, Nat.cast_mul, Nat.cast_pow, Nat.cast_ofNat] using hv
  · have hdigits : Nat.ofDigitChars 10
        ((Nat.toDigits 10 n).take 1 ++ (Nat.toDigits 10 n).drop 1) 0 = n := by
      rw [List.take_append_drop, Nat.ofDigitChars_ten_toDigits]
    have hlen := Nat.length_toDigits_pos (b := 10) (n := n)
    rw [numeral_scientific hzero hd (he.symm ▸ hl) hw,
      Numeral.decimal_of_lt hdigits (hlt.trans (by decide)), Option.getD_some, List.length_drop,
      show leading - ((Nat.toDigits 10 n).length - 1 : ℕ) = e by omega]
    exact ⟨hv, hpos, hlt⟩

end Binary64

namespace Number

/-- Whether a number can be written; infinities cannot. -/
def IsFinite : Number → Prop
  | .integer _ => True
  | .double x => x.isFinite = true

/-- How a number is written. -/
def numeral : Number → Numeral
  | .integer n => ⟨decide (n.value < 0), Nat.toDigits 10 n.value.natAbs, [], none⟩
  | .double x => x.numeral

theorem toList_numberText {n : Number} (hn : n.IsFinite) :
    (numberText n).toList = n.numeral.chars := by
  cases n with
  | integer n =>
    simp only [numberText, Int.toString_eq_repr, Int.repr_eq_if, numeral, Numeral.chars]
    split
    · next h =>
      have hneg : ¬ n.value < 0 := by omega
      simp [hneg, Nat.toList_repr, show n.value.toNat = n.value.natAbs by omega]
    · next h =>
      have hneg : n.value < 0 := by omega
      simp [hneg, Nat.toList_repr, show (-n.value).toNat = n.value.natAbs by omega]
  | double x => exact Binary64.toList_scientificText hn

theorem proper_numeral {n : Number} (hn : n.IsFinite) : n.numeral.Proper := by
  cases n with
  | integer n =>
    refine ⟨fun c hc => Text.isDigit_of_mem_toDigits hc, nofun, Nat.toDigits_ne_nil, fun h => ?_⟩
    have hzero : n.value.natAbs = 0 := Decidable.of_not_not fun hne => Text.head?_toDigits hne h
    rw [numeral, hzero]
    rfl
  | double x => exact Binary64.proper_numeral hn

/-- An integer is read as it was written. -/
theorem integer?_numeral (n : Integer) : (numeral (.integer n)).integer? = some n := by
  have hvalue : (if decide (n.value < 0) = true then -(n.value.natAbs : Int)
      else (n.value.natAbs : Int)) = n.value := by
    simp only [decide_eq_true_eq]
    split <;> omega
  have hsign : (decide (n.value < 0) && n.value.natAbs == 0) = false := by
    rw [Bool.and_eq_false_iff, decide_eq_false_iff_not, beq_eq_false_iff_ne]
    omega
  simp only [numeral, Numeral.integer?, Numeral.isWhole, Numeral.appendDigits_eq,
    Nat.ofDigitChars_ten_toDigits, List.isEmpty_nil, Option.isNone_none, Bool.and_self, hsign,
    Bool.not_false, if_true, hvalue, Integer.ofInt?_value]

end Number

end EventPipeline
