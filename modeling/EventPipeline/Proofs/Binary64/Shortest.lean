import EventPipeline.Binary64.Shortest
import EventPipeline.Proofs.Binary64.Rounding

/-!
The shortest digits of a double are held by it (`holds_shortest`). The interval in which they are
searched is that of the numbers that the double holds (`contains_inUnits`), and the seventeenth
grid is finer than it is wide.
-/

namespace EventPipeline.Binary64

variable {x : Binary64}

theorem ten_zpow_pos (e : ℤ) : (0 : ℚ) < 10 ^ e := zpow_pos (by decide) e

theorem odd_iff : x.significand % 2 = 1 ↔ ¬ x.significand % 2 = 0 := by omega

theorem reach_of_odd (h : x.significand % 2 = 1) : x.reach = 1 / 2 := by
  rw [reach, if_neg]
  rintro ⟨hf, he⟩
  rw [significand, if_neg (by omega), hf] at h
  cases h

theorem holds_iff {v : ℚ} : x.Holds v ↔
    if x.significand % 2 = 0 then
      (x.significand - x.reach) * 2 ^ x.scale ≤ v ∧ v ≤ (x.significand + 1 / 2) * 2 ^ x.scale
    else
      (x.significand - x.reach) * 2 ^ x.scale < v ∧ v < (x.significand + 1 / 2) * 2 ^ x.scale := by
  split
  · next h =>
    exact ⟨fun hv => ⟨hv.low_le, hv.le_high⟩, fun hv => ⟨hv.1, hv.2, fun hodd => by omega⟩⟩
  · next h =>
    have hodd := odd_iff.mpr h
    have hr := reach_of_odd hodd
    rw [hr]
    exact ⟨fun hv => hv.inside hodd, fun hv => ⟨by rw [hr]; exact hv.1.le, hv.2.le, fun _ => hv⟩⟩

/-- Both sides of a comparison on a grid are multiples of one number. -/
theorem grid_eq (s e : ℤ) (c n : ℕ) :
    ((c * (1 <<< (s - 2).toNat) * 10 ^ (-e).toNat : ℕ) : ℚ) =
        c / 4 * 2 ^ s * ((1 <<< (2 - s).toNat : ℕ) * 10 ^ (-e).toNat) ∧
      ((n * (1 <<< (2 - s).toNat * 10 ^ e.toNat) : ℕ) : ℚ) =
        n * 10 ^ e * ((1 <<< (2 - s).toNat : ℕ) * 10 ^ (-e).toNat) := by
  have hten : (10 : ℚ) ^ e.toNat = 10 ^ e * 10 ^ (-e).toNat := by
    rw [zpow_toNat_div 10 (by norm_num), div_mul_cancel₀ _ (by positivity)]
  have htwo : ((1 <<< (s - 2).toNat : ℕ) : ℚ) = 2 ^ s / 4 * (1 <<< (2 - s).toNat : ℕ) := by
    have hshift := shift_div 1 1 (2 - s)
    have hpos : ((1 <<< (2 - s).toNat : ℕ) : ℚ) ≠ 0 := by
      rw [Nat.one_shiftLeft]
      positivity
    rw [neg_sub, div_eq_iff hpos] at hshift
    rw [hshift, zpow_sub₀ two_ne_zero]
    norm_num
  constructor
  · rw [Nat.cast_mul, Nat.cast_mul, htwo, Nat.cast_pow, Nat.cast_ofNat]
    ring
  · rw [Nat.cast_mul, Nat.cast_mul, Nat.cast_pow, Nat.cast_ofNat, hten]
    ring

theorem grid_le_iff (s e : ℤ) (c n : ℕ) :
    (c * (1 <<< (s - 2).toNat) * 10 ^ (-e).toNat ≤ n * (1 <<< (2 - s).toNat * 10 ^ e.toNat) ↔
      (c / 4 * 2 ^ s : ℚ) ≤ n * 10 ^ e) ∧
    (n * (1 <<< (2 - s).toNat * 10 ^ e.toNat) ≤ c * (1 <<< (s - 2).toNat) * 10 ^ (-e).toNat ↔
      (n * 10 ^ e : ℚ) ≤ c / 4 * 2 ^ s) := by
  obtain ⟨hc, hn⟩ := grid_eq s e c n
  have hpos : (0 : ℚ) < (1 <<< (2 - s).toNat : ℕ) * 10 ^ (-e).toNat := by
    rw [Nat.one_shiftLeft]
    positivity
  rw [← Nat.cast_le (α := ℚ), ← Nat.cast_le (α := ℚ), hc, hn, mul_le_mul_iff_left₀ hpos,
    mul_le_mul_iff_left₀ hpos]
  exact ⟨Iff.rfl, Iff.rfl⟩

/-- The search interval is that of the numbers which the double holds. -/
theorem contains_inUnits (hpos : 0 < x.significand) (e : ℤ) (n : ℕ) :
    (x.span.inUnits e).contains n = true ↔ x.Holds (n * 10 ^ e) := by
  have hlow : (((if x.fractionBits = 0 ∧ 1 < x.exponentBits then 4 * x.significand - 1
      else 4 * x.significand - 2 : ℕ) : ℚ) / 4) = x.significand - x.reach := by
    rw [reach]
    split
    · rw [Nat.cast_sub (by omega)]
      push_cast
      ring
    · rw [Nat.cast_sub (by omega)]
      push_cast
      ring
  have hhigh : ((4 * x.significand + 2 : ℕ) : ℚ) / 4 = x.significand + 1 / 2 := by
    push_cast
    ring
  rw [holds_iff, ← hlow, ← hhigh, Span.contains, Span.inUnits, span]
  generalize (if x.fractionBits = 0 ∧ 1 < x.exponentBits then 4 * x.significand - 1
      else 4 * x.significand - 2) = low
  generalize 4 * x.significand + 2 = high
  have h₁ := (grid_le_iff x.scale e low n).1
  have h₂ := (grid_le_iff x.scale e high n).2
  have h₃ := not_congr (grid_le_iff x.scale e low n).2
  have h₄ := not_congr (grid_le_iff x.scale e high n).1
  rw [not_le, not_le] at h₃ h₄
  simp only [Nat.pow_eq] at *
  by_cases heven : x.significand % 2 = 0
  · simp only [heven, decide_true, if_true, Bool.and_eq_true, decide_eq_true_eq, h₁, h₂]
  · simp only [heven, decide_false, if_false, Bool.false_eq_true, Bool.and_eq_true,
      decide_eq_true_eq, h₃, h₄]

namespace Span

/-- What is found on a grid lies in the interval. -/
theorem contains_of_nearest? {s : Span} {tie : Tie} {n : ℕ} (h : s.nearest? tie = some n) :
    s.contains n = true := by
  rw [nearest?] at h
  split at h
  · next hb ha =>
    split at h
    · exact Option.some.inj h ▸ ha
    · exact Option.some.inj h ▸ hb
  · next hb _ => exact Option.some.inj h ▸ hb
  · next _ ha => exact Option.some.inj h ▸ ha
  · cases h

theorem isSome_nearest? {s : Span} (tie : Tie)
    (h : s.contains (s.value / s.den) = true ∨ s.contains (s.value / s.den + 1) = true) :
    (s.nearest? tie).isSome = true := by
  rw [nearest?]
  split
  · rfl
  · rfl
  · rfl
  · next hb ha => simp [hb, ha] at h

/-- The search ends on a grid with a point in the interval if there is one within reach. -/
theorem firstHit_contains {s : Span} {tie : Tie} {n k : ℕ} {e : ℤ} (hk : k < n)
    (h : ((s.inUnits (e - k)).nearest? tie).isSome = true) :
    (s.inUnits (s.firstHit tie n e).exponent).contains (s.firstHit tie n e).digits = true ∧
      e - k ≤ (s.firstHit tie n e).exponent := by
  induction n generalizing k e with
  | zero => omega
  | succ n ih =>
    rw [firstHit]
    split
    · next digits hd => exact ⟨contains_of_nearest? hd, by simp⟩
    · next hd =>
      cases k with
      | zero =>
        rw [Nat.cast_zero, sub_zero, hd] at h
        cases h
      | succ k =>
        rw [Nat.cast_succ, show e - (k + 1 : ℤ) = e - 1 - k by ring] at h ⊢
        exact ih (by omega) h

/-- The leading place is found from below, if it is within reach. -/
theorem leadingPlace_spec {s : Span} {P : ℤ → Prop} {n : ℕ} {e : ℤ}
    (hP : ∀ e, (s.inUnits e).den ≤ (s.inUnits e).value ↔ P e) (he : P e) :
    P (s.leadingPlace n e) ∧ (s.leadingPlace n e = e + n ∨ ¬ P (s.leadingPlace n e + 1)) := by
  induction n generalizing e with
  | zero => exact ⟨he, .inl (add_zero e).symm⟩
  | succ n ih =>
    rw [leadingPlace]
    split
    · next hle =>
      obtain ⟨hplace, hend⟩ := ih ((hP _).mp hle)
      exact ⟨hplace, hend.imp_left fun hend => by rw [hend]; push_cast; ring⟩
    · next hle => exact ⟨he, .inr fun hnext => hle ((hP _).mpr hnext)⟩

end Span

theorem strip_spec (d : Decimal) (n : ℕ) :
    ((d.strip n).digits * 10 ^ (d.strip n).exponent : ℚ) = d.digits * 10 ^ d.exponent ∧
      (d.strip n).digits ≤ d.digits ∧ (0 < d.digits → 0 < (d.strip n).digits) := by
  induction n generalizing d with
  | zero => exact ⟨rfl, le_rfl, id⟩
  | succ n ih =>
    rw [Decimal.strip]
    split
    · next hmod =>
      obtain ⟨hvalue, hle, hpos⟩ := ih ⟨d.digits / 10, d.exponent + 1⟩
      have hdiv : d.digits = 10 * (d.digits / 10) := by omega
      refine ⟨hvalue.trans ?_, by dsimp only at hle; omega, fun h => hpos (by dsimp only; omega)⟩
      have hcast : (d.digits : ℚ) = 10 * ((d.digits / 10 : ℕ) : ℚ) := by exact_mod_cast hdiv
      rw [hcast, zpow_add_one₀ (by norm_num)]
      ring
    · exact ⟨rfl, le_rfl, id⟩

/-- A power of ten that takes no more bits than a power of two is not larger. -/
theorem ten_zpow_le_two_zpow {j k : ℤ} (hk : 0 ≤ k) (hjk : 196 * j ≤ 59 * k) :
    (10 : ℚ) ^ j ≤ 2 ^ k := by
  rcases le_total 0 j with hj | hj
  · refine le_of_pow_le_pow_left₀ (show 59 ≠ 0 by decide) (two_zpow_pos k).le ?_
    calc ((10 : ℚ) ^ j) ^ 59 = (10 ^ 59) ^ j := by rw [← zpow_natCast, ← zpow_natCast, zpow_comm]
      _ ≤ (2 ^ 196) ^ j := zpow_le_zpow_left₀ hj (by norm_num) (by norm_num)
      _ = 2 ^ (196 * j) := by rw [← zpow_natCast, ← zpow_mul]; rfl
      _ ≤ 2 ^ (59 * k) := zpow_le_zpow_right₀ (by norm_num) hjk
      _ = (2 ^ k) ^ 59 := by rw [← zpow_natCast, ← zpow_mul, mul_comm]; rfl
  · exact (zpow_le_one_of_nonpos₀ (by norm_num) hj).trans (one_le_zpow₀ (by norm_num) hk)

/-- A power of two that takes no more digits than a power of ten is not larger. -/
theorem two_zpow_le_ten_zpow {j k : ℤ} (hj : 0 ≤ j) (hjk : 28 * k ≤ 93 * j) :
    (2 : ℚ) ^ k ≤ 10 ^ j := by
  rcases le_total 0 k with hk | hk
  · refine le_of_pow_le_pow_left₀ (show 28 ≠ 0 by decide) (ten_zpow_pos j).le ?_
    calc ((2 : ℚ) ^ k) ^ 28 = 2 ^ (28 * k) := by rw [← zpow_natCast, ← zpow_mul, mul_comm]; rfl
      _ ≤ 2 ^ (93 * j) := zpow_le_zpow_right₀ (by norm_num) hjk
      _ = (2 ^ 93) ^ j := by rw [← zpow_natCast, ← zpow_mul]; rfl
      _ ≤ (10 ^ 28) ^ j := zpow_le_zpow_left₀ hj (by norm_num) (by norm_num)
      _ = (10 ^ j) ^ 28 := by rw [← zpow_natCast, ← zpow_natCast, zpow_comm]
  · exact (zpow_le_one_of_nonpos₀ (by norm_num) hk).trans (one_le_zpow₀ (by norm_num) hj)

/-- The estimate of a decimal place from a binary one is at most that place, and too small by
less than three. -/
theorem estimate_bounds {k : ℤ} (hlo : -1074 ≤ k) (hhi : k ≤ 1023) :
    (10 : ℚ) ^ (k * 30103 / 100000 - 1) ≤ 2 ^ k ∧
      (2 : ℚ) ^ (k + 1) ≤ 10 ^ (k * 30103 / 100000 + 2) := by
  have hinv {a b : ℤ} {x y : ℚ} (hx : 0 < x) (hy : 0 < y) (h : x ^ (-a) ≤ y ^ (-b)) :
      y ^ b ≤ x ^ a := by
    rwa [zpow_neg, zpow_neg, inv_le_inv₀ (zpow_pos hx a) (zpow_pos hy b)] at h
  constructor
  · rcases le_total 0 k with hk | hk
    · exact ten_zpow_le_two_zpow hk (by omega)
    · exact hinv two_pos (by norm_num) (two_zpow_le_ten_zpow (by omega) (by omega))
  · rcases le_total 0 (k + 1) with hk | hk
    · exact two_zpow_le_ten_zpow (by omega) (by omega)
    · exact hinv (by norm_num) two_pos (ten_zpow_le_two_zpow (by omega) (by omega))

/-- The absolute value of a double lies between powers of two. -/
theorem abs_bounds (hx : x.isFinite = true) (hpos : 0 < x.significand) :
    (2 : ℚ) ^ (x.significand.log2 + x.scale) ≤ x.abs ∧
      x.abs < 2 ^ (x.significand.log2 + x.scale + 1) ∧
      -1074 ≤ x.significand.log2 + x.scale ∧ x.significand.log2 + x.scale ≤ 1023 := by
  have hs := two_zpow_pos x.scale
  have h₁ : (2 : ℚ) ^ x.significand.log2 ≤ x.significand := by
    exact_mod_cast Nat.log2_self_le (Nat.ne_of_gt hpos)
  have h₂ : (x.significand : ℚ) < 2 ^ (x.significand.log2 + 1) := by
    exact_mod_cast Nat.lt_log2_self
  have hlog : x.significand.log2 < 53 :=
    (Nat.log2_lt (Nat.ne_of_gt hpos)).mpr (x.significand_lt.trans_le (by decide))
  have hge := x.scale_ge
  have hle := scale_le hx
  refine ⟨?_, ?_, by omega, by omega⟩
  · rw [abs, zpow_add₀ two_ne_zero, zpow_natCast]
    exact mul_le_mul_of_nonneg_right h₁ hs.le
  · rw [abs, add_right_comm, zpow_add₀ two_ne_zero, ← Nat.cast_succ, zpow_natCast]
    exact mul_lt_mul_of_pos_right h₂ hs

theorem Holds.of_lt_of_lt {v : ℚ} (hlo : (x.significand - x.reach) * 2 ^ x.scale < v)
    (hhi : v < (x.significand + 1 / 2) * 2 ^ x.scale) : x.Holds v := by
  rw [holds_iff]
  split
  · exact ⟨hlo.le, hhi.le⟩
  · exact ⟨hlo, hhi⟩

/-- The numbers that a double holds fill more than one part in `10 ^ 16` of it. -/
theorem significand_lt_reach : (x.significand : ℚ) < (1 / 2 + x.reach) * 10 ^ (16 : ℤ) := by
  rw [reach]
  split
  · next h =>
    have hm : x.significand = hiddenBit := by rw [significand, if_neg (by omega), h.1]
    rw [hm]
    norm_num [hiddenBit]
  · have hm : (x.significand : ℚ) < ((2 * hiddenBit : ℕ) : ℚ) := Nat.cast_lt.mpr x.significand_lt
    exact hm.trans_le (by norm_num [hiddenBit])

theorem reach_pos : 0 < x.reach := by
  rw [reach]
  split <;> norm_num

/-- A grid of seventeen digits or more has a point in the interval. -/
theorem exists_holds_grid {e : ℤ} (he : (10 : ℚ) ^ (e + 16) ≤ x.abs) (n : ℕ)
    (hlo : (n * 10 ^ e : ℚ) ≤ x.abs) (hhi : x.abs < (n + 1 : ℕ) * 10 ^ e) :
    x.Holds (n * 10 ^ e) ∨ x.Holds ((n + 1 : ℕ) * 10 ^ e) := by
  have hs := two_zpow_pos x.scale
  rw [abs] at he hlo hhi
  by_contra hnone
  obtain ⟨hbelow, habove⟩ := not_or.mp hnone
  have hlow : (n * 10 ^ e : ℚ) ≤ (x.significand - x.reach) * 2 ^ x.scale := by
    by_contra hlt
    refine hbelow (.of_lt_of_lt (not_le.mp hlt) (hlo.trans_lt ?_))
    rw [mul_lt_mul_iff_left₀ hs]
    linarith
  have hhigh : (x.significand + 1 / 2) * 2 ^ x.scale ≤ ((n + 1 : ℕ) * 10 ^ e : ℚ) := by
    by_contra hlt
    refine habove (.of_lt_of_lt (lt_of_le_of_lt ?_ hhi) (not_le.mp hlt))
    rw [mul_le_mul_iff_left₀ hs]
    linarith [x.reach_pos]
  -- one step of the grid would be as wide as the interval
  have hstep : (1 / 2 + x.reach) * 2 ^ x.scale ≤ 10 ^ e := by
    push_cast at hhigh
    linarith
  have hwide : (1 / 2 + x.reach) * 10 ^ (16 : ℤ) * 2 ^ x.scale ≤ x.significand * 2 ^ x.scale := by
    calc (1 / 2 + x.reach) * 10 ^ (16 : ℤ) * 2 ^ x.scale
        = (1 / 2 + x.reach) * 2 ^ x.scale * 10 ^ (16 : ℤ) := by ring
      _ ≤ 10 ^ e * 10 ^ (16 : ℤ) := by gcongr
      _ = 10 ^ (e + 16) := (zpow_add₀ (by norm_num) e 16).symm
      _ ≤ x.significand * 2 ^ x.scale := he
  rw [mul_le_mul_iff_left₀ hs] at hwide
  exact absurd hwide (not_le.mpr significand_lt_reach)

/-- The value in the middle of the interval, counted in units of `10 ^ e`. -/
theorem value_inUnits (x : Binary64) (e : ℤ) :
    ((x.span.inUnits e).value : ℚ) * 10 ^ e = x.abs * (x.span.inUnits e).den ∧
      0 < (x.span.inUnits e).den := by
  have hvalue := (grid_eq x.scale e (4 * x.significand) 1).1
  have hden := (grid_eq x.scale e 0 1).2
  rw [one_mul] at hden
  simp only [Span.inUnits, span, Nat.pow_eq]
  rw [hvalue, hden]
  constructor
  · rw [abs]
    push_cast
    ring
  · rw [Nat.one_shiftLeft]
    positivity

theorem den_le_value_iff (x : Binary64) (e : ℤ) (n : ℕ) :
    n * (x.span.inUnits e).den ≤ (x.span.inUnits e).value ↔ (n * 10 ^ e : ℚ) ≤ x.abs := by
  obtain ⟨hvalue, hden⟩ := x.value_inUnits e
  have hden' : (0 : ℚ) < (x.span.inUnits e).den := Nat.cast_pos.mpr hden
  rw [← Nat.cast_le (α := ℚ), Nat.cast_mul, ← mul_le_mul_iff_left₀ (ten_zpow_pos e), hvalue,
    mul_right_comm, mul_le_mul_iff_left₀ hden']

/-- Every grid from the seventeenth on has a point in the interval, next to the value. -/
theorem isSome_nearest?_inUnits (hpos : 0 < x.significand) (tie : Tie) {e : ℤ}
    (he : (10 : ℚ) ^ (e + 16) ≤ x.abs) : ((x.span.inUnits e).nearest? tie).isSome = true := by
  refine Span.isSome_nearest? tie ?_
  rw [contains_inUnits hpos, contains_inUnits hpos]
  have hden := (x.value_inUnits e).2
  refine exists_holds_grid he _ ?_ ?_
  · rw [← den_le_value_iff]
    exact Nat.div_mul_le_self _ _
  · rw [← not_le, ← den_le_value_iff, not_le, mul_comm]
    exact Nat.lt_mul_div_succ _ hden

/-- The shortest digits of a double are held by it; there are at most eighteen. -/
theorem holds_shortest (hx : x.isFinite = true) (hpos : 0 < x.significand) (tie : Tie) :
    x.Holds ((x.shortest tie).digits * 10 ^ (x.shortest tie).exponent) ∧
      0 < (x.shortest tie).digits ∧ (x.shortest tie).digits < 10 ^ 18 := by
  obtain ⟨hk₁, hk₂, hlo, hhi⟩ := abs_bounds hx hpos
  obtain ⟨he₁, he₂⟩ := estimate_bounds hlo hhi
  rw [shortest]
  generalize (x.significand.log2 + x.scale : ℤ) = k at *
  obtain ⟨hplace, hnext⟩ := Span.leadingPlace_spec (s := x.span)
    (P := fun e => (10 : ℚ) ^ e ≤ x.abs) (n := 4)
    (fun e => by simpa using den_le_value_iff x e 1) (he₁.trans hk₁)
  have habs : x.abs < 10 ^ (x.span.leadingPlace 4 (k * 30103 / 100000 - 1) + 1) := by
    rcases hnext with heq | hnext
    · exact (hk₂.trans_le he₂).trans_le
        (zpow_le_zpow_right₀ (by norm_num) (by rw [heq]; push_cast; omega))
    · exact not_le.mp hnext
  generalize x.span.leadingPlace 4 (k * 30103 / 100000 - 1) = e at *
  obtain ⟨hhit, hexp⟩ := Span.firstHit_contains (show 16 < 17 by decide)
    (isSome_nearest?_inUnits hpos tie (e := e - (16 : ℕ)) (by simpa using hplace))
  rw [contains_inUnits hpos] at hhit
  generalize x.span.firstHit tie 17 e = d at *
  obtain ⟨hvalue, hdigits, hzero⟩ := strip_spec d 18
  have hs := two_zpow_pos x.scale
  have hten := ten_zpow_pos d.exponent
  rw [hvalue]
  refine ⟨hhit, hzero ?_, hdigits.trans_lt ?_⟩
  · rw [← Nat.cast_pos (α := ℚ)]
    exact pos_of_mul_pos_left (hhit.pos hpos) hten.le
  · have hm : (1 : ℚ) ≤ x.significand := by exact_mod_cast hpos
    have hhigh : (x.significand + 1 / 2) * 2 ^ x.scale ≤ 2 * x.abs := by
      rw [abs, ← mul_assoc, mul_le_mul_iff_left₀ hs]
      linarith
    have hplaces : (10 : ℚ) ^ (e + 1) ≤ 10 ^ (17 : ℤ) * 10 ^ d.exponent := by
      rw [← zpow_add₀ (by norm_num)]
      exact zpow_le_zpow_right₀ (by norm_num) (by push_cast at hexp; omega)
    have hlt : (d.digits * 10 ^ d.exponent : ℚ) < (2 * 10 ^ (17 : ℤ)) * 10 ^ d.exponent := by
      calc (d.digits * 10 ^ d.exponent : ℚ) ≤ 2 * x.abs := hhit.le_high.trans hhigh
        _ < 2 * 10 ^ (e + 1) := by linarith
        _ ≤ 2 * (10 ^ (17 : ℤ) * 10 ^ d.exponent) := by linarith
        _ = (2 * 10 ^ (17 : ℤ)) * 10 ^ d.exponent := by ring
    rw [mul_lt_mul_iff_left₀ hten] at hlt
    have hcast : (d.digits : ℚ) < ((10 ^ 18 : ℕ) : ℚ) := hlt.trans (by norm_num)
    exact_mod_cast hcast

end EventPipeline.Binary64
