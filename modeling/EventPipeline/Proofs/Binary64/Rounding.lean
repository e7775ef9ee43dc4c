import EventPipeline.Binary64.Rounding
import Mathlib.Algebra.Order.Field.Power
import Mathlib.Data.Rat.Cast.Order
import Mathlib.Tactic.FieldSimp
import Mathlib.Tactic.Linarith
import Mathlib.Tactic.Positivity
import Mathlib.Tactic.Ring

/-!
Rounding. The numbers that a double *holds* are those that round to it: the ones half-way to its
neighbours at most, the ends being its own when its significand is even. Whatever a double holds
is rounded to it (`nearest_eq`).
-/

namespace EventPipeline.Binary64

theorem two_zpow_pos (e : ℤ) : (0 : ℚ) < 2 ^ e := zpow_pos (by decide) e

theorem roundDiv_eq {num den r : ℕ} (hden : 0 < den) (hlo : 2 * (r * den) ≤ 2 * num + den)
    (hhi : 2 * num ≤ 2 * (r * den) + den)
    (htie : r % 2 = 1 → 2 * (r * den) ≠ 2 * num + den ∧ 2 * num ≠ 2 * (r * den) + den) :
    roundDiv num den = r := by
  have hdiv := Nat.div_add_mod num den
  have hmod := Nat.mod_lt num hden
  rw [Nat.mul_comm] at hdiv
  rw [roundDiv]
  generalize num / den = quotient at *
  generalize num % den = rest at *
  have hle : quotient ≤ r := by
    by_contra hlt
    have : (r + 1) * den ≤ quotient * den := Nat.mul_le_mul_right _ (by omega)
    rw [Nat.add_mul] at this
    omega
  have hge : r ≤ quotient + 1 := by
    by_contra hlt
    have : (quotient + 2) * den ≤ r * den := Nat.mul_le_mul_right _ (by omega)
    rw [Nat.add_mul] at this
    omega
  rcases Nat.eq_or_lt_of_le hle with rfl | hlt
  · split
    · rfl
    · split <;> omega
  · obtain rfl : r = quotient + 1 := by omega
    rw [Nat.add_mul] at hlo hhi htie
    split
    · omega
    · split <;> omega

/-- Shifting both parts of a fraction is multiplying it with a power of two. -/
theorem shift_div (num den : ℕ) (e : ℤ) :
    ((num <<< (-e).toNat : ℕ) : ℚ) / ((den <<< e.toNat : ℕ) : ℚ) = num / den * 2 ^ (-e) := by
  rw [Nat.shiftLeft_eq, Nat.shiftLeft_eq]
  push_cast
  rcases le_total 0 e with he | he
  · obtain ⟨n, rfl⟩ := Int.eq_ofNat_of_zero_le he
    rw [zpow_neg, zpow_natCast, Int.toNat_natCast, Int.toNat_neg_natCast, pow_zero, mul_one,
      ← div_eq_mul_inv, div_div]
  · obtain ⟨n, rfl⟩ : ∃ n : ℕ, e = -n := ⟨e.natAbs, by omega⟩
    rw [neg_neg, zpow_natCast, Int.toNat_natCast, Int.toNat_neg_natCast, pow_zero, mul_one,
      div_mul_eq_mul_div]

/-- A fraction lies between the powers of two that the lengths of its parts suggest. -/
theorem log2_bounds {num den : ℕ} (hnum : 0 < num) (hden : 0 < den) :
    (2 : ℚ) ^ ((num.log2 : ℤ) - den.log2 - 1) < num / den ∧
      (num / den : ℚ) < 2 ^ ((num.log2 : ℤ) - den.log2 + 1) := by
  have hd : (0 : ℚ) < den := Nat.cast_pos.mpr hden
  have hn₁ : (2 : ℚ) ^ num.log2 ≤ num := by exact_mod_cast Nat.log2_self_le (Nat.ne_of_gt hnum)
  have hn₂ : (num : ℚ) < 2 ^ (num.log2 + 1) := by exact_mod_cast Nat.lt_log2_self
  have hd₁ : (2 : ℚ) ^ den.log2 ≤ den := by exact_mod_cast Nat.log2_self_le (Nat.ne_of_gt hden)
  have hd₂ : (den : ℚ) < 2 ^ (den.log2 + 1) := by exact_mod_cast Nat.lt_log2_self
  constructor
  · have hpow : (2 : ℚ) ^ ((num.log2 : ℤ) - den.log2 - 1) = 2 ^ num.log2 / 2 ^ (den.log2 + 1) := by
      rw [show (num.log2 : ℤ) - den.log2 - 1 = (num.log2 : ℤ) - ((den.log2 + 1 : ℕ) : ℤ) by
        push_cast; ring, zpow_sub₀ two_ne_zero, zpow_natCast, zpow_natCast]
    rw [hpow, div_lt_div_iff₀ (by positivity) hd]
    calc (2 : ℚ) ^ num.log2 * den ≤ num * den := by gcongr
      _ < num * 2 ^ (den.log2 + 1) := by gcongr
  · have hpow : (2 : ℚ) ^ ((num.log2 : ℤ) - den.log2 + 1) = 2 ^ (num.log2 + 1) / 2 ^ den.log2 := by
      rw [show (num.log2 : ℤ) - den.log2 + 1 = ((num.log2 + 1 : ℕ) : ℤ) - (den.log2 : ℤ) by
        push_cast; ring, zpow_sub₀ two_ne_zero, zpow_natCast, zpow_natCast]
    rw [hpow, div_lt_div_iff₀ hd (by positivity)]
    calc (num : ℚ) * 2 ^ den.log2 ≤ num * den := by gcongr
      _ < 2 ^ (num.log2 + 1) * den := by gcongr

/-- In units of `2 ^ scaleOf num den` a fraction has at most 53 bits, and no fewer if the scale
is not the least. -/
theorem scaleOf_bounds {num den : ℕ} (hnum : 0 < num) (hden : 0 < den) :
    -1074 ≤ scaleOf num den ∧ (num / den : ℚ) < 2 ^ (scaleOf num den + 53) ∧
      (scaleOf num den = -1074 ∨ (2 : ℚ) ^ (scaleOf num den + 52) ≤ num / den) := by
  obtain ⟨hlo, hhi⟩ := log2_bounds hnum hden
  rw [scaleOf]
  generalize he : (num.log2 : ℤ) - den.log2 - 53 = e
  rw [show (num.log2 : ℤ) - den.log2 - 1 = e + 52 by omega] at hlo
  rw [show (num.log2 : ℤ) - den.log2 + 1 = e + 54 by omega] at hhi
  have hshift : 0 < den <<< e.toNat := by
    rw [Nat.shiftLeft_eq]
    positivity
  have hfloor : (num <<< (-e).toNat) / (den <<< e.toNat) < 2 * hiddenBit ↔
      (num / den : ℚ) < 2 ^ (e + 53) := by
    have hbits : ((2 * hiddenBit : ℕ) : ℚ) = 2 ^ (53 : ℤ) := by norm_num [hiddenBit]
    rw [Nat.div_lt_iff_lt_mul hshift, ← Nat.cast_lt (α := ℚ), Nat.cast_mul,
      ← div_lt_iff₀ (Nat.cast_pos.mpr hshift), shift_div, hbits, zpow_neg,
      ← div_eq_mul_inv, div_lt_iff₀ (two_zpow_pos e), ← zpow_add₀ two_ne_zero, add_comm]
  simp only [hfloor]
  have hmono {a b : ℤ} (hab : a ≤ b) : (2 : ℚ) ^ a ≤ 2 ^ b :=
    zpow_le_zpow_right₀ (by norm_num) hab
  refine ⟨le_max_right _ _, ?_, ?_⟩
  · split
    · next h => exact h.trans_le (hmono (by omega))
    · exact hhi.trans_le (hmono (by omega))
  · rcases le_total (if (num / den : ℚ) < 2 ^ (e + 53) then e else e + 1) (-1074) with h | h
    · exact .inl (max_eq_right h)
    · rw [max_eq_left h]
      right
      split
      · exact hlo.le
      · next h =>
        rw [show e + 1 + 52 = e + 53 by ring]
        exact not_lt.mp h

/-- The absolute value of a double. -/
def abs (x : Binary64) : ℚ := x.significand * 2 ^ x.scale

theorem abs_nonneg (x : Binary64) : 0 ≤ x.abs :=
  mul_nonneg (Nat.cast_nonneg _) (two_zpow_pos _).le

/-- How far the numbers that round to a double reach below it, in units of its scale. Below a
power of two the doubles are twice as close. -/
def reach (x : Binary64) : ℚ := if x.fractionBits = 0 ∧ 1 < x.exponentBits then 1 / 4 else 1 / 2

theorem reach_le (x : Binary64) : x.reach ≤ 1 / 2 := by
  rw [reach]
  split <;> norm_num

/-- Whether a positive number rounds to the absolute value of the double. -/
structure Holds (x : Binary64) (v : ℚ) : Prop where
  low_le : (x.significand - x.reach) * 2 ^ x.scale ≤ v
  le_high : v ≤ (x.significand + 1 / 2) * 2 ^ x.scale
  /-- The ends belong to the neighbours when the significand is odd. -/
  inside : x.significand % 2 = 1 →
    (x.significand - 1 / 2 : ℚ) * 2 ^ x.scale < v ∧ v < (x.significand + 1 / 2) * 2 ^ x.scale

theorem Holds.pos {x : Binary64} {v : ℚ} (hv : x.Holds v) (hx : 0 < x.significand) : 0 < v := by
  have hm : (1 : ℚ) ≤ x.significand := by exact_mod_cast hx
  exact (mul_pos (by linarith [x.reach_le]) (two_zpow_pos _)).trans_le hv.low_le

/-- The magnitude bits count the doubles from zero on. -/
theorem magnitude_eq (x : Binary64) :
    x.magnitude = (x.scale + 1074).toNat * hiddenBit + x.significand := by
  have hdiv := Nat.div_add_mod x.magnitude hiddenBit
  rw [scale, significand, exponentBits, fractionBits] at *
  generalize x.magnitude / hiddenBit = e at *
  split
  · next h =>
    subst h
    simp only [Nat.mul_zero, Nat.zero_add] at hdiv
    simp [hdiv]
  · next h =>
    rw [show ((e : ℤ) - 1075 + 1074).toNat = e - 1 by omega, Nat.sub_mul, Nat.one_mul]
    have : hiddenBit ≤ e * hiddenBit := Nat.le_mul_of_pos_left _ (by omega)
    rw [Nat.mul_comm] at hdiv
    omega

theorem scale_ge (x : Binary64) : -1074 ≤ x.scale := by
  rw [scale]
  split <;> omega

/-- Unless the scale is the least, the significand has all of its bits. -/
theorem hiddenBit_le_significand {x : Binary64} (hx : -1074 < x.scale) :
    hiddenBit ≤ x.significand ∧ 1 < x.exponentBits := by
  rw [scale] at hx
  rw [significand]
  split at hx
  · omega
  · next h =>
    rw [if_neg h]
    exact ⟨Nat.le_add_right _ _, by omega⟩

/-- What is at most half a unit away from an integer is rounded to it. -/
theorem roundDiv_shift {num den m : ℕ} {q : ℤ} (hden : 0 < den)
    (hlo : (m - 1 / 2 : ℚ) * 2 ^ q ≤ num / den) (hhi : (num / den : ℚ) ≤ (m + 1 / 2) * 2 ^ q)
    (htie : m % 2 = 1 →
      (m - 1 / 2 : ℚ) * 2 ^ q < num / den ∧ (num / den : ℚ) < (m + 1 / 2) * 2 ^ q) :
    roundDiv (num <<< (-q).toNat) (den <<< q.toNat) = m := by
  have hshift : 0 < den <<< q.toNat := by
    rw [Nat.shiftLeft_eq]
    positivity
  have hs : (0 : ℚ) < (den <<< q.toNat : ℕ) := Nat.cast_pos.mpr hshift
  have hv : (num / den : ℚ) =
      ((num <<< (-q).toNat : ℕ) : ℚ) / ((den <<< q.toNat : ℕ) : ℚ) * 2 ^ q := by
    rw [shift_div, mul_assoc, ← zpow_add₀ two_ne_zero, neg_add_cancel, zpow_zero, mul_one]
  have hq := two_zpow_pos q
  generalize num <<< (-q).toNat = num' at *
  generalize den <<< q.toNat = den' at *
  rw [hv] at hlo hhi htie
  rw [mul_le_mul_iff_left₀ hq, le_div_iff₀ hs] at hlo
  rw [mul_le_mul_iff_left₀ hq, div_le_iff₀ hs] at hhi
  refine roundDiv_eq hshift ?_ ?_ fun hodd => ?_
  · rw [← Nat.cast_le (α := ℚ)]
    push_cast
    linarith
  · rw [← Nat.cast_le (α := ℚ)]
    push_cast
    linarith
  · obtain ⟨h₁, h₂⟩ := htie hodd
    rw [mul_lt_mul_iff_left₀ hq, lt_div_iff₀ hs] at h₁
    rw [mul_lt_mul_iff_left₀ hq, div_lt_iff₀ hs] at h₂
    constructor
    · rw [ne_eq, ← Nat.cast_inj (R := ℚ)]
      push_cast
      linarith
    · rw [ne_eq, ← Nat.cast_inj (R := ℚ)]
      push_cast
      linarith

theorem hiddenBit_cast : ((hiddenBit : ℕ) : ℚ) = 2 ^ (52 : ℤ) := by norm_num [hiddenBit]

theorem zpow_add_mul (e k : ℤ) : (2 : ℚ) ^ (e + k) = 2 ^ k * 2 ^ e := by
  rw [zpow_add₀ two_ne_zero, mul_comm]

/-- Below the smallest number with the scale of a double, only that number's own neighbourhood is
held by the double, and it is half as wide there. -/
theorem Holds.of_lt {x : Binary64} {v : ℚ} (hx : x.Holds v) (hs : -1074 < x.scale)
    (hv : v < 2 ^ (x.scale + 52)) :
    x.significand = hiddenBit ∧ (hiddenBit - 1 / 4 : ℚ) * 2 ^ x.scale ≤ v := by
  obtain ⟨hbit, hexp⟩ := hiddenBit_le_significand hs
  have hlow := hx.low_le.trans_lt hv
  rw [zpow_add_mul, mul_lt_mul_iff_left₀ (two_zpow_pos _), ← hiddenBit_cast] at hlow
  have hm : x.significand = hiddenBit := by
    refine le_antisymm ?_ hbit
    by_contra hgt
    have hcast : ((hiddenBit + 1 : ℕ) : ℚ) ≤ x.significand := Nat.cast_le.mpr (by omega)
    rw [Nat.cast_add, Nat.cast_one] at hcast
    have := x.reach_le
    linarith
  have hfraction : x.fractionBits = 0 := by
    rw [significand, if_neg (by omega)] at hm
    omega
  have hle := hx.low_le
  rw [reach, if_pos ⟨hfraction, hexp⟩, hm] at hle
  exact ⟨hm, hle⟩

/-- Numbers are rounded to the double that holds them. -/
theorem nearest_eq {x : Binary64} {num den : ℕ} (hnum : 0 < num) (hden : 0 < den)
    (hx : x.Holds (num / den)) : nearest num den = x.magnitude := by
  obtain ⟨hge, hlt, hle⟩ := scaleOf_bounds hnum hden
  have hscale := x.scale_ge
  have hmono {a b : ℤ} (hab : a ≤ b) : (2 : ℚ) ^ a ≤ 2 ^ b :=
    zpow_le_zpow_right₀ (by norm_num) hab
  have hs := two_zpow_pos x.scale
  rw [nearest, x.magnitude_eq]
  generalize scaleOf num den = q at *
  rcases lt_trichotomy q x.scale with h | rfl | h
  · -- the number lies below a power of two, which is the double; it rounds up to it
    obtain ⟨hm, hlow⟩ := hx.of_lt (by omega) (hlt.trans_le (hmono (by omega)))
    obtain rfl : q = x.scale - 1 := by
      by_contra hne
      have hsmall := hlow.trans_lt (hlt.trans_le (hmono (show q + 53 ≤ x.scale + 51 by omega)))
      rw [zpow_add_mul, mul_lt_mul_iff_left₀ hs, hiddenBit_cast] at hsmall
      norm_num at hsmall
    have hhalf : (2 : ℚ) ^ x.scale = 2 * 2 ^ (x.scale - 1) := by
      rw [← zpow_one_add₀ two_ne_zero, add_sub_cancel]
    rw [roundDiv_shift (m := 2 * hiddenBit) hden, hm]
    · rw [show (x.scale - 1 + 1074).toNat = (x.scale + 1074).toNat - 1 by omega, Nat.sub_mul]
      have : 1 * hiddenBit ≤ (x.scale + 1074).toNat * hiddenBit :=
        Nat.mul_le_mul_right _ (by omega)
      omega
    · rw [hhalf] at hlow
      push_cast
      linarith
    · refine hlt.le.trans ?_
      rw [show x.scale - 1 + 53 = x.scale - 1 + (52 + 1) by ring, zpow_add_mul,
        mul_le_mul_iff_left₀ (two_zpow_pos _), zpow_add₀ two_ne_zero, ← hiddenBit_cast]
      push_cast
      linarith
    · intro hodd
      rw [Nat.mul_mod_right] at hodd
      cases hodd
  · congr 1
    refine roundDiv_shift hden (le_trans ?_ hx.low_le) hx.le_high hx.inside
    rw [mul_le_mul_iff_left₀ hs]
    have := x.reach_le
    linarith
  · -- the number would be too large for the double
    have hbig : (2 : ℚ) ^ (x.scale + 53) ≤ num / den :=
      (hmono (by omega)).trans (hle.resolve_left (by omega))
    have hcontra := hbig.trans hx.le_high
    have hbits : ((x.significand + 1 : ℕ) : ℚ) ≤ ((2 * hiddenBit : ℕ) : ℚ) :=
      Nat.cast_le.mpr x.significand_lt
    push_cast at hbits
    rw [show x.scale + 53 = x.scale + (52 + 1) by ring, zpow_add_mul, mul_le_mul_iff_left₀ hs,
      zpow_add₀ two_ne_zero, ← hiddenBit_cast] at hcontra
    linarith

theorem magnitude_lt {x : Binary64} (hx : x.isFinite = true) : x.magnitude < infinityBits := by
  have hm : x.magnitude < signBit := Nat.mod_lt _ (by decide)
  have he : x.magnitude / hiddenBit ≠ 2047 := by simpa [isFinite, exponentBits] using hx
  simp only [infinityBits, hiddenBit, signBit] at *
  omega

theorem ofMagnitude_magnitude (x : Binary64) : ofMagnitude x.isNegative x.magnitude = x := by
  have hlt := x.bits.toNat_lt
  have hbits : (if x.isNegative = true then signBit + x.magnitude else x.magnitude) =
      x.bits.toNat := by
    simp only [isNegative, magnitude, decide_eq_true_iff, signBit]
    split <;> omega
  rw [ofMagnitude, hbits, UInt64.ofNat_toNat]

theorem scale_le {x : Binary64} (hx : x.isFinite = true) : x.scale ≤ 971 := by
  have hm := magnitude_lt hx
  have he : x.exponentBits < 2047 := Nat.div_lt_of_lt_mul (Nat.mul_comm _ _ ▸ hm)
  rw [scale]
  split <;> omega

theorem zpow_toNat_div (a : ℚ) (ha : a ≠ 0) (e : ℤ) : a ^ e = a ^ e.toNat / a ^ (-e).toNat := by
  rw [← zpow_natCast, ← zpow_natCast, ← zpow_sub₀ ha]
  congr 1
  omega

end EventPipeline.Binary64
