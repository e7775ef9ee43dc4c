import EventPipeline.Binary64.Arithmetic
import EventPipeline.Proofs.Binary64.Rounding

/-!
Rounding keeps order (`nearest_mono`), and so do products of doubles (`magnitude_times_mono`). So
all products are finite if those of the largest factors are, which a computation shows
(`isSome_timesTen?_of_le`). Integers and powers of ten that a double has enough bits for are not
rounded before they are multiplied (`timesTen?_of_holds`).
-/

namespace EventPipeline.Binary64

variable {num den num' den' : ℕ}

/-- Fractions are in the same order among themselves as they are to one half. -/
theorem half_mono {r r' : ℕ} (hden : 0 < den) (hden' : 0 < den') (h : r * den' ≤ r' * den) :
    (2 * r' < den' → 2 * r < den) ∧ (2 * r' = den' → 2 * r ≤ den) := by
  constructor
  · intro hr'
    by_contra hr
    have h₁ : den * den' ≤ 2 * r * den' := Nat.mul_le_mul_right _ (by omega)
    have h₂ : 2 * r' * den < den' * den := Nat.mul_lt_mul_of_pos_right hr' hden
    rw [Nat.mul_assoc] at h₁ h₂
    rw [Nat.mul_comm den'] at h₂
    omega
  · intro hr'
    by_contra hr
    have h₁ : den * den' < 2 * r * den' := Nat.mul_lt_mul_of_pos_right (by omega) hden'
    have h₂ : 2 * r' * den = den * den' := by rw [hr', Nat.mul_comm]
    rw [Nat.mul_assoc] at h₁ h₂
    omega

/-- Integers nearest to fractions are in the order of the fractions. -/
theorem roundDiv_mono (hden : 0 < den) (hden' : 0 < den') (h : (num / den : ℚ) ≤ num' / den') :
    roundDiv num den ≤ roundDiv num' den' := by
  have hcross : num * den' ≤ num' * den := by
    rw [div_le_div_iff₀ (Nat.cast_pos.mpr hden) (Nat.cast_pos.mpr hden')] at h
    exact_mod_cast h
  have hdiv := Nat.div_add_mod num den
  have hdiv' := Nat.div_add_mod num' den'
  have hmod := Nat.mod_lt num hden
  have hmod' := Nat.mod_lt num' hden'
  rw [roundDiv, roundDiv]
  generalize num / den = n at *
  generalize num' / den' = n' at *
  generalize num % den = r at *
  generalize num' % den' = r' at *
  subst hdiv hdiv'
  have hle : n ≤ n' := by
    by_contra hlt
    have hstep : den * (n' + 1) * den' ≤ den * n * den' := by gcongr; omega
    have hrest : r' * den < den' * den := Nat.mul_lt_mul_of_pos_right hmod' hden
    have hsame : den' * n' * den = den * n' * den' := by ring
    simp only [Nat.add_mul, Nat.mul_add, Nat.mul_one, Nat.mul_comm den' den] at *
    omega
  rcases Nat.eq_or_lt_of_le hle with rfl | hlt
  · -- the rests are in the order of the fractions
    have hrest : r * den' ≤ r' * den := by
      have hsame : den' * n * den = den * n * den' := by ring
      simp only [Nat.add_mul] at hcross
      omega
    obtain ⟨hbelow, hhalf⟩ := half_mono hden hden' hrest
    split_ifs <;> omega
  · split_ifs <;> omega

theorem roundDiv_one (n : ℕ) : roundDiv n 1 = n := by
  rw [roundDiv, Nat.mod_one, Nat.div_one]
  rfl

theorem scaleOf_mono (hnum : 0 < num) (hden : 0 < den) (hnum' : 0 < num') (hden' : 0 < den')
    (h : (num / den : ℚ) ≤ num' / den') : scaleOf num den ≤ scaleOf num' den' := by
  obtain ⟨-, -, hlow⟩ := scaleOf_bounds hnum hden
  obtain ⟨hge, hlt, -⟩ := scaleOf_bounds hnum' hden'
  by_contra hgt
  have hle := ((hlow.resolve_left (by omega)).trans h).trans_lt hlt
  rw [zpow_lt_zpow_iff_right₀ (by norm_num)] at hle
  omega

/-- In units of its scale, a fraction is rounded to at most 53 bits, and to no fewer if the scale is
not the least. -/
theorem roundDiv_bounds (hnum : 0 < num) (hden : 0 < den) {q : ℤ} (hq : scaleOf num den = q) :
    roundDiv (num <<< (-q).toNat) (den <<< q.toNat) ≤ 2 * hiddenBit ∧
      (q = -1074 ∨ hiddenBit ≤ roundDiv (num <<< (-q).toNat) (den <<< q.toNat)) := by
  obtain ⟨-, hlt, hle⟩ := scaleOf_bounds hnum hden
  have hshift : 0 < den <<< q.toNat := by
    rw [Nat.shiftLeft_eq]
    positivity
  have hvalue := shift_div num den q
  rw [zpow_neg, ← div_eq_mul_inv, eq_div_iff (two_zpow_pos q).ne'] at hvalue
  rw [hq, ← hvalue] at hlt hle
  rw [zpow_add_mul, mul_lt_mul_iff_left₀ (two_zpow_pos q)] at hlt
  rw [zpow_add_mul, mul_le_mul_iff_left₀ (two_zpow_pos q)] at hle
  constructor
  · refine (roundDiv_mono hshift Nat.one_pos ?_).trans (roundDiv_one _).le
    refine hlt.le.trans ?_
    norm_num [hiddenBit]
  · refine hle.imp_right fun hle => (roundDiv_one _).ge.trans (roundDiv_mono one_pos hshift ?_)
    refine le_trans ?_ hle
    norm_num [hiddenBit]

/-- Larger numbers are rounded to larger doubles, or to the same. -/
theorem nearest_mono (hnum : 0 < num) (hden : 0 < den) (hnum' : 0 < num') (hden' : 0 < den')
    (h : (num / den : ℚ) ≤ num' / den') : nearest num den ≤ nearest num' den' := by
  have hscale := scaleOf_mono hnum hden hnum' hden' h
  have hge := (scaleOf_bounds hnum hden).1
  obtain ⟨hr, -⟩ := roundDiv_bounds hnum hden rfl
  obtain ⟨-, hr'⟩ := roundDiv_bounds hnum' hden' rfl
  rw [nearest, nearest]
  rcases Int.le_iff_eq_or_lt.mp hscale with heq | hlt
  · rw [heq]
    refine Nat.add_le_add_left (roundDiv_mono ?_ ?_ ?_) _
    · rw [Nat.shiftLeft_eq]
      positivity
    · rw [Nat.shiftLeft_eq]
      positivity
    · rw [shift_div, shift_div]
      exact mul_le_mul_of_nonneg_right h (two_zpow_pos _).le
  · have hr' := hr'.resolve_left (by omega)
    have hstep : ((scaleOf num den + 1074).toNat + 1) * hiddenBit ≤
        (scaleOf num' den' + 1074).toNat * hiddenBit := Nat.mul_le_mul_right _ (by omega)
    rw [Nat.add_mul] at hstep
    omega

section

variable {x y x' y' : Binary64}

/-- The magnitude bits tell the scale and the significand. -/
theorem abs_eq_of_magnitude {q : ℤ} {r : ℕ} (hq : -1074 ≤ q) (hr : r ≤ 2 * hiddenBit)
    (hfull : q = -1074 ∨ hiddenBit ≤ r)
    (h : x.magnitude = (q + 1074).toNat * hiddenBit + r) : x.abs = r * 2 ^ q := by
  have hm := x.magnitude_eq
  have hlt := x.significand_lt
  have hge := x.scale_ge
  have hbit : -1074 < x.scale → hiddenBit ≤ x.significand := fun hs =>
    (hiddenBit_le_significand hs).1
  rw [h] at hm
  rw [abs]
  rcases lt_trichotomy x.scale q with hlt' | heq | hgt
  · simp only [hiddenBit] at *
    omega
  · rw [heq] at hm ⊢
    rw [Nat.add_left_cancel hm]
  · -- the significand was rounded up to the next power of two
    obtain ⟨rfl, hs, rfl⟩ : q = x.scale - 1 ∧ x.significand = hiddenBit ∧ r = 2 * hiddenBit := by
      simp only [hiddenBit] at *
      omega
    rw [hs, zpow_sub_one₀ two_ne_zero]
    push_cast
    ring

/-- Doubles are in the order of their magnitude bits. -/
theorem abs_le_abs (h : x.magnitude ≤ y.magnitude) : x.abs ≤ y.abs := by
  have hx := x.magnitude_eq
  have hy := y.magnitude_eq
  have hlt := x.significand_lt
  have hlt' := y.significand_lt
  have hge := x.scale_ge
  have hge' := y.scale_ge
  have hbit : -1074 < y.scale → hiddenBit ≤ y.significand := fun hs =>
    (hiddenBit_le_significand hs).1
  have hbit' : -1074 < x.scale → hiddenBit ≤ x.significand := fun hs =>
    (hiddenBit_le_significand hs).1
  simp only [hiddenBit] at *
  rw [abs, abs]
  rcases lt_trichotomy x.scale y.scale with hs | hs | hs
  · have hdouble : (x.significand : ℚ) ≤ 2 * y.significand := by exact_mod_cast (by omega)
    calc (x.significand * 2 ^ x.scale : ℚ) ≤ 2 * y.significand * 2 ^ x.scale := by gcongr
      _ = y.significand * 2 ^ (x.scale + 1) := by rw [zpow_add_one₀ two_ne_zero]; ring
      _ ≤ y.significand * 2 ^ y.scale := by
        gcongr
        · norm_num
        · omega
  · rw [hs] at hx ⊢
    have hle : (x.significand : ℚ) ≤ y.significand := by exact_mod_cast (by omega)
    gcongr
  · omega

theorem magnitude_ofMagnitude {m : ℕ} (hm : m < signBit) (negative : Bool) :
    (ofMagnitude negative m).magnitude = m := by
  rw [magnitude, ofMagnitude, UInt64.toNat_ofNat']
  cases negative <;> simp only [Bool.false_eq_true, if_true, if_false, signBit] at * <;> omega

theorem isFinite_iff : x.isFinite = true ↔ x.magnitude < infinityBits := by
  refine ⟨magnitude_lt, fun h => ?_⟩
  have hlt : x.magnitude / hiddenBit < 2047 := Nat.div_lt_of_lt_mul (Nat.mul_comm _ _ ▸ h)
  rw [isFinite, exponentBits, bne_iff_ne]
  exact Nat.ne_of_lt hlt

/-- Whether a double is finite is not a matter of its sign. -/
theorem isFinite_withSign (hx : x.isFinite = true) (negative : Bool) :
    (x.withSign negative).isFinite = true := by
  rw [isFinite_iff] at hx ⊢
  rwa [withSign, magnitude_ofMagnitude (hx.trans (by decide))]

theorem magnitude_ofRatio (num den : ℕ) :
    (ofRatio num den).magnitude = if num = 0 then 0 else min (nearest num den) infinityBits := by
  refine magnitude_ofMagnitude ?_ false
  split
  · decide
  · exact (min_le_right _ _).trans_lt (by decide)

theorem magnitude_ofRatio_mono (hden : 0 < den) (hden' : 0 < den')
    (h : (num / den : ℚ) ≤ num' / den') :
    (ofRatio num den).magnitude ≤ (ofRatio num' den').magnitude := by
  rw [magnitude_ofRatio, magnitude_ofRatio]
  rcases Nat.eq_zero_or_pos num with rfl | hnum
  · exact Nat.zero_le _
  · have hnum' : 0 < num' := by
      rw [← Nat.cast_pos (α := ℚ), ← div_pos_iff_of_pos_right (Nat.cast_pos.mpr hden')]
      exact (div_pos (Nat.cast_pos.mpr hnum) (Nat.cast_pos.mpr hden)).trans_le h
    rw [if_neg hnum.ne', if_neg hnum'.ne']
    exact min_le_min_right _ (nearest_mono hnum hden hnum' hden' h)

theorem magnitude_ofRatio_one_mono {m n : ℕ} (h : m ≤ n) :
    (ofRatio m 1).magnitude ≤ (ofRatio n 1).magnitude := by
  refine magnitude_ofRatio_mono one_pos one_pos ?_
  rw [Nat.cast_one, div_one, div_one]
  exact_mod_cast h

/-- Integers of 64 bits are in the range of doubles. -/
theorem isFinite_ofRatio_one {n : ℕ} (hn : n < UInt64.size) : (ofRatio n 1).isFinite = true := by
  have hlimit : (ofRatio (UInt64.size) 1).isFinite = true := by decide +kernel
  rw [isFinite_iff] at hlimit ⊢
  exact (magnitude_ofRatio_one_mono hn.le).trans_lt hlimit

/-- A product is a rounded fraction. -/
theorem exists_times (x y : Binary64) :
    ∃ num den, 0 < den ∧ x.times y = ofRatio num den ∧ (num / den : ℚ) = x.abs * y.abs := by
  refine ⟨_, _, ?_, rfl, ?_⟩
  · rw [Nat.one_shiftLeft]
    positivity
  · have hshift := shift_div (x.significand * y.significand) 1 (-(x.scale + y.scale))
    rw [neg_neg] at hshift
    rw [hshift, abs, abs, zpow_add₀ two_ne_zero]
    push_cast
    ring

/-- A quotient is a rounded fraction. -/
theorem exists_dividedBy (x : Binary64) (hy : 0 < y.abs) :
    ∃ num den, 0 < den ∧ x.dividedBy y = ofRatio num den ∧ (num / den : ℚ) = x.abs / y.abs := by
  have hs : 0 < y.significand := by
    rw [abs] at hy
    exact_mod_cast pos_of_mul_pos_left hy (two_zpow_pos _).le
  refine ⟨_, _, ?_, rfl, ?_⟩
  · rw [Nat.shiftLeft_eq]
    positivity
  · have hshift := shift_div x.significand y.significand (-(x.scale - y.scale))
    rw [neg_neg] at hshift
    rw [hshift, abs, abs, zpow_sub₀ two_ne_zero]
    ring

theorem magnitude_times_mono (hx : x.magnitude ≤ x'.magnitude) (hy : y.magnitude ≤ y'.magnitude) :
    (x.times y).magnitude ≤ (x'.times y').magnitude := by
  obtain ⟨num, den, hden, htimes, hvalue⟩ := exists_times x y
  obtain ⟨num', den', hden', htimes', hvalue'⟩ := exists_times x' y'
  rw [htimes, htimes']
  refine magnitude_ofRatio_mono hden hden' ?_
  rw [hvalue, hvalue']
  exact mul_le_mul (abs_le_abs hx) (abs_le_abs hy) y.abs_nonneg x'.abs_nonneg

/-- The largest finite double. -/
def largest : Binary64 := ⟨0x7FEF_FFFF_FFFF_FFFF⟩

theorem abs_le_largest (hx : x.isFinite = true) : x.abs ≤ largest.abs :=
  abs_le_abs (Nat.le_of_lt_succ (isFinite_iff.mp hx))

theorem one_le_abs_powerOfTen (n : ℕ) : 1 ≤ (powerOfTen n).abs := by
  have hone : (ofRatio 1 1).abs = 1 := by
    have hm : (ofRatio 1 1).significand = hiddenBit := by decide +kernel
    have hs : (ofRatio 1 1).scale = -52 := by decide +kernel
    rw [abs, hm, hs]
    norm_num [hiddenBit]
  rw [← hone]
  exact abs_le_abs (magnitude_ofRatio_one_mono (Nat.one_le_pow' n 9))

theorem isFinite_ofRatio (hden : 0 < den) (h : (num / den : ℚ) ≤ largest.abs) :
    (ofRatio num den).isFinite = true := by
  have hlargest : (largest.times (powerOfTen 0)).isFinite = true := by decide +kernel
  obtain ⟨num', den', hden', htimes, hvalue⟩ := exists_times largest (powerOfTen 0)
  rw [htimes, isFinite_iff] at hlargest
  refine isFinite_iff.mpr ((magnitude_ofRatio_mono hden hden' ?_).trans_lt hlargest)
  rw [hvalue]
  exact h.trans (le_mul_of_one_le_right largest.abs_nonneg (one_le_abs_powerOfTen 0))

theorem isFinite_dividedBy_powerOfTen (hx : x.isFinite = true) (n : ℕ) :
    (x.dividedBy (powerOfTen n)).isFinite = true := by
  have hp := one_le_abs_powerOfTen n
  obtain ⟨num, den, hden, hdivided, hvalue⟩ := exists_dividedBy x (one_pos.trans_le hp)
  rw [hdivided]
  refine isFinite_ofRatio hden ?_
  rw [hvalue]
  exact (div_le_self x.abs_nonneg hp).trans (abs_le_largest hx)

theorem isFinite_of_timesTen? {e : ℤ} (hx : x.isFinite = true) (h : x.timesTen? e = some y) :
    y.isFinite = true := by
  fun_induction timesTen? with
  | case1 x e _ _ => exact (Option.filter_eq_some_iff.mp h).2
  | case2 x e _ _ => exact Option.some.inj h ▸ isFinite_dividedBy_powerOfTen hx _
  | case3 x e _ _ => exact Option.some.inj h ▸ hx
  | case4 x e _ _ _ => cases h
  | case5 x e _ _ _ ih => exact ih (isFinite_dividedBy_powerOfTen hx _) h

/-- Nothing is too large to be divided. -/
theorem isSome_timesTen?_of_neg {e : ℤ} (he : e < 0) (x : Binary64) :
    (x.timesTen? e).isSome = true := by
  fun_induction timesTen? with
  | case1 x e _ h => omega
  | case2 x e _ _ => rfl
  | case3 x e _ _ => rfl
  | case4 x e _ _ h => omega
  | case5 x e hlarge _ _ ih =>
    simp only [largestPower] at hlarge ih ⊢
    exact ih (by omega)

/-- Half-way between the two largest finite doubles. -/
def halfway : ℕ := (4 * hiddenBit - 3) * 2 ^ 970

theorem halfway_lt : halfway < 10 ^ 309 := by decide +kernel

theorem two_zpow_succ : (2 : ℚ) ^ (971 : ℤ) = 2 * 2 ^ (970 : ℤ) := by
  rw [show (971 : ℤ) = 1 + 970 by norm_num, zpow_one_add₀ two_ne_zero]

theorem cast_halfway : (halfway : ℚ) = (2 * hiddenBit - 3 / 2) * 2 ^ (971 : ℤ) := by
  have hbits : ((4 * hiddenBit - 3 : ℕ) : ℚ) = 4 * hiddenBit - 3 := by norm_num [hiddenBit]
  rw [halfway, Nat.cast_mul, hbits, Nat.cast_pow, two_zpow_succ, zpow_ofNat, Nat.cast_ofNat]
  generalize (2 : ℚ) ^ 970 = p
  ring

/-- What a double holds is at most half-way to the largest one, unless it is that one. -/
theorem Holds.le_halfway {v : ℚ} (hv : x.Holds v) (hx : x.magnitude < largest.magnitude) :
    v ≤ halfway := by
  have hfinite : x.isFinite = true := isFinite_iff.mpr (hx.trans (by decide))
  have hm := x.magnitude_eq
  refine hv.le_high.trans ?_
  rw [cast_halfway]
  rcases Int.le_iff_eq_or_lt.mp (scale_le hfinite) with hs | hs
  · have hlargest : largest.magnitude = infinityBits - 1 := by decide
    have hlast : x.significand + 2 ≤ 2 * hiddenBit := by
      rw [hs] at hm
      simp only [hlargest, infinityBits, hiddenBit] at *
      omega
    have hlast : ((x.significand + 2 : ℕ) : ℚ) ≤ (2 * hiddenBit : ℕ) := Nat.cast_le.mpr hlast
    rw [hs, mul_le_mul_iff_left₀ (two_zpow_pos _)]
    push_cast at hlast ⊢
    linarith only [hlast]
  · have hbits : ((x.significand + 1 : ℕ) : ℚ) ≤ (2 * hiddenBit : ℕ) :=
      Nat.cast_le.mpr x.significand_lt
    have hbits' : (x.significand + 1 / 2 : ℚ) ≤ 2 * hiddenBit := by
      push_cast at hbits ⊢
      linarith only [hbits]
    have hscale : (2 : ℚ) ^ x.scale ≤ 2 ^ (970 : ℤ) :=
      zpow_le_zpow_right₀ one_le_two (by omega)
    calc (x.significand + 1 / 2 : ℚ) * 2 ^ x.scale ≤ (2 * hiddenBit) * 2 ^ (970 : ℤ) := by gcongr
      _ = hiddenBit * 2 ^ (971 : ℤ) := by rw [two_zpow_succ]; ring
      _ ≤ (2 * hiddenBit - 3 / 2) * 2 ^ (971 : ℤ) := by
          rw [mul_le_mul_iff_left₀ (two_zpow_pos _)]
          norm_num [hiddenBit]

theorem isFinite_times_powerOfTen_mono {n n' k k' : ℕ} (hn : n ≤ n') (hk : k ≤ k')
    (h : ((ofRatio n' 1).times (powerOfTen k')).isFinite = true) :
    ((ofRatio n 1).times (powerOfTen k)).isFinite = true := by
  rw [isFinite_iff] at h ⊢
  refine (magnitude_times_mono (magnitude_ofRatio_one_mono hn) ?_).trans_lt h
  exact magnitude_ofRatio_one_mono (Nat.pow_le_pow_right (by decide) hk)

/-- Integers of eighteen digits are brought to their place, unless the exact number is more than
half-way between the two largest doubles. -/
theorem isSome_timesTen?_of_le {n k : ℕ} (hpos : 0 < n) (hn : n ≤ 10 ^ 18)
    (h : n * 10 ^ k ≤ halfway) : ((ofRatio n 1).timesTen? k).isSome = true := by
  have hk : k < 309 := by
    by_contra hge
    have hpow : 10 ^ 309 ≤ 10 ^ k := pow_le_pow_right₀ (by decide) (not_lt.mp hge)
    exact (halfway_lt.trans_le (hpow.trans (Nat.le_mul_of_pos_left _ hpos))).not_ge h
  have hfinite : ((ofRatio n 1).times (powerOfTen k)).isFinite = true := by
    rcases Nat.lt_or_ge 290 k with hk' | hk'
    · have hall : ∀ i < 18, ((ofRatio (halfway / 10 ^ (291 + i)) 1).times
          (powerOfTen (291 + i))).isFinite = true := by decide +kernel
      obtain ⟨i, rfl⟩ := Nat.exists_eq_add_of_le hk'
      exact isFinite_times_powerOfTen_mono ((Nat.le_div_iff_mul_le (by positivity)).mpr h) le_rfl
        (hall i (by omega))
    · exact isFinite_times_powerOfTen_mono hn hk' (by decide +kernel)
  have hplace : (k : ℤ).natAbs ≤ largestPower := Nat.le_of_lt_succ hk
  rw [timesTen?, if_pos hplace, if_pos (Int.natCast_nonneg k), Int.natAbs_natCast,
    Option.filter_some_pos hfinite]
  rfl

theorem scaleOf_one_nonpos {n : ℕ} (hpos : 0 < n) (hn : n < 2 * hiddenBit) : scaleOf n 1 ≤ 0 := by
  obtain ⟨-, -, hle⟩ := scaleOf_bounds hpos one_pos
  by_contra hq
  have hbig := hle.resolve_left (by omega)
  have hsmall : (n / (1 : ℕ) : ℚ) < 2 ^ (53 : ℤ) := by
    have hcast : (n : ℚ) < (2 * hiddenBit : ℕ) := Nat.cast_lt.mpr hn
    rw [Nat.cast_one, div_one]
    exact hcast.trans_eq (by norm_num [hiddenBit])
  have hlt := hbig.trans_lt hsmall
  rw [zpow_lt_zpow_iff_right₀ (by norm_num)] at hlt
  omega

/-- Integers of 53 bits are doubles. -/
theorem abs_ofRatio_one {n : ℕ} (hn : n < 2 * hiddenBit) : (ofRatio n 1).abs = n := by
  rcases Nat.eq_zero_or_pos n with rfl | hpos
  · rw [abs_eq_of_magnitude (q := -1074) (r := 0) le_rfl (Nat.zero_le _) (.inl rfl)
      (magnitude_ofRatio 0 1), Nat.cast_zero, zero_mul]
  · have hge := (scaleOf_bounds hpos one_pos).1
    have hq := scaleOf_one_nonpos hpos hn
    obtain ⟨hr, hfull⟩ := roundDiv_bounds hpos one_pos rfl
    have hnearest : nearest n 1 =
        (scaleOf n 1 + 1074).toNat * hiddenBit + n <<< (-scaleOf n 1).toNat := by
      rw [nearest, Int.toNat_of_nonpos hq, Nat.shiftLeft_zero, roundDiv_one]
    rw [Int.toNat_of_nonpos hq, Nat.shiftLeft_zero, roundDiv_one] at hr hfull
    have hlt : nearest n 1 < infinityBits := by
      have hscale : (scaleOf n 1 + 1074).toNat * hiddenBit ≤ 1074 * hiddenBit :=
        Nat.mul_le_mul_right _ (by omega)
      simp only [hnearest, infinityBits, hiddenBit] at *
      omega
    rw [abs_eq_of_magnitude hge hr hfull, Nat.shiftLeft_eq, Nat.cast_mul, Nat.cast_pow, mul_assoc,
      Nat.cast_ofNat, ← zpow_natCast, ← zpow_add₀ two_ne_zero, Int.toNat_of_nonneg (by omega),
      neg_add_cancel, zpow_zero, mul_one]
    rw [magnitude_ofRatio, if_neg hpos.ne', min_eq_left hlt.le, hnearest]

/-- Powers of ten up to the 22nd are doubles. -/
theorem abs_powerOfTen {k : ℕ} (hk : k ≤ 22) : (powerOfTen k).abs = 10 ^ k := by
  have hall : ∀ k < 23, (powerOfTen k).significand * 2 ^ (powerOfTen k).scale.toNat =
      10 ^ k * 2 ^ (-(powerOfTen k).scale).toNat := by decide +kernel
  have hk := hall k (by omega)
  rw [abs, zpow_toNat_div 2 two_ne_zero, ← mul_div_assoc, div_eq_iff (by positivity)]
  exact_mod_cast hk

/-- What a double holds is rounded to it. -/
theorem ofRatio_eq (hx : x.isFinite = true) (hpos : 0 < x.significand) (hden : 0 < den)
    (hv : x.Holds (num / den)) : ofRatio num den = ofMagnitude false x.magnitude := by
  have hnum : 0 < num := by
    rw [← Nat.cast_pos (α := ℚ), ← div_pos_iff_of_pos_right (Nat.cast_pos.mpr hden)]
    exact hv.pos hpos
  rw [ofRatio, if_neg hnum.ne', nearest_eq hnum hden hv, min_eq_left (magnitude_lt hx).le]

/-- Digits of 53 bits are brought to a place next to the point without an error on the way. -/
theorem timesTen?_of_holds {n : ℕ} {e : ℤ} (hx : x.isFinite = true) (hpos : 0 < x.significand)
    (hn : n < 2 * hiddenBit) (he : e.natAbs ≤ 22) (hv : x.Holds (n * 10 ^ e)) :
    (ofRatio n 1).timesTen? e = some (ofMagnitude false x.magnitude) := by
  have hplace : e.natAbs ≤ largestPower := he.trans (by decide)
  rw [timesTen?, if_pos hplace]
  split
  · next hnonneg =>
    obtain ⟨num, den, hden, htimes, hvalue⟩ := exists_times (ofRatio n 1) (powerOfTen e.natAbs)
    rw [abs_ofRatio_one hn, abs_powerOfTen he, ← zpow_natCast, Int.natAbs_of_nonneg hnonneg]
      at hvalue
    rw [htimes, ofRatio_eq hx hpos hden (hvalue ▸ hv)]
    exact Option.filter_some_pos (isFinite_withSign hx false)
  · next hneg =>
    obtain ⟨num, den, hden, hdivided, hvalue⟩ := exists_dividedBy (ofRatio n 1)
      (one_pos.trans_le (one_le_abs_powerOfTen e.natAbs))
    have hinverse : (n * 10 ^ e : ℚ) = n / 10 ^ e.natAbs := by
      rw [div_eq_mul_inv, ← zpow_natCast, ← zpow_neg, show -(e.natAbs : ℤ) = e by omega]
    rw [abs_ofRatio_one hn, abs_powerOfTen he, ← hinverse] at hvalue
    rw [hdivided, ofRatio_eq hx hpos hden (hvalue ▸ hv)]

end

end EventPipeline.Binary64
