import EventPipeline.Text.Count
import Mathlib.Data.List.TakeDrop

/-!
Decimal digits at the front of a text, and the digits of a number; a count is read off its digits
(`readCount?_toDigits`).
-/

namespace EventPipeline.Text

theorem span_append {α : Type} {p : α → Bool} {xs ys : List α} (hx : ∀ a ∈ xs, p a = true)
    (hy : ∀ a, ys.head? = some a → p a = false) : (xs ++ ys).span p = (xs, ys) := by
  have hys : ys.takeWhile p = [] ∧ ys.dropWhile p = ys := by
    cases ys with
    | nil => exact ⟨rfl, rfl⟩
    | cons y ys =>
      have hp := hy y rfl
      exact ⟨List.takeWhile_cons_of_neg (by simp [hp]), List.dropWhile_cons_of_neg (by simp [hp])⟩
  rw [List.span_eq_takeWhile_dropWhile, List.takeWhile_append_of_pos hx,
    List.dropWhile_append_of_pos hx, hys.1, hys.2, List.append_nil]

theorem isDigit_of_mem_toDigits {n : Nat} {c : Char} (hc : c ∈ Nat.toDigits 10 n) :
    c.isDigit = true :=
  Nat.isDigit_of_mem_toDigits (by decide) (by decide) hc

/-- Only the digits of zero start with a zero. -/
theorem head?_toDigits {n : Nat} (hn : n ≠ 0) : (Nat.toDigits 10 n).head? ≠ some '0' := by
  induction n using Nat.strongRecOn with
  | ind n ih =>
    by_cases hlt : n < 10
    · rw [Nat.toDigits_of_lt_base hlt, List.head?_cons, ne_eq, Option.some.injEq,
        Nat.digitChar_eq_zero]
      exact hn
    · have hhead := ih (n / 10) (by omega) (by omega)
      rw [Nat.toDigits_of_base_le (by decide) (Nat.le_of_not_lt hlt)]
      cases hds : Nat.toDigits 10 (n / 10) with
      | nil => exact absurd hds Nat.toDigits_ne_nil
      | cons d ds =>
        rw [hds] at hhead
        exact hhead

theorem digit?_of_isDigit {c : Char} (h : c.isDigit = true) :
    digit? c = some (c.toNat - '0'.toNat) := by
  obtain ⟨hlower, hupper⟩ := Char.isDigit_iff_toNat.mp h
  exact if_pos ⟨Char.le_def.mpr (UInt32.le_iff_toNat_le.mpr hlower),
    Char.le_def.mpr (UInt32.le_iff_toNat_le.mpr hupper)⟩

/-- A number does not become smaller when digits are appended. -/
theorem le_ofDigitChars (cs : List Char) (n : Nat) : n ≤ Nat.ofDigitChars 10 cs n := by
  induction cs generalizing n with
  | nil => exact Nat.le_refl n
  | cons c cs ih =>
    rw [Nat.ofDigitChars_cons]
    have := ih (10 * n + (c.toNat - '0'.toNat))
    omega

theorem countDigits_eq_ok {cs : List Char} (hd : ∀ c ∈ cs, c.isDigit = true) {n : Nat}
    (h : Nat.ofDigitChars 10 cs n < countLimit) :
    countDigits n cs = .ok (Nat.ofDigitChars 10 cs n) := by
  induction cs generalizing n with
  | nil => rfl
  | cons c cs ih =>
    rw [Nat.ofDigitChars_cons] at h ⊢
    have hlt := Nat.lt_of_le_of_lt (le_ofDigitChars cs _) h
    rw [countDigits, digit?_of_isDigit (hd c List.mem_cons_self)]
    dsimp only
    rw [if_pos hlt, ih (fun d hd' => hd d (List.mem_cons_of_mem _ hd')) h]

theorem readCount?_toDigits {n : Nat} (h : n < countLimit) :
    readCount? (Nat.toDigits 10 n) = some n := by
  have hd : ∀ c ∈ Nat.toDigits 10 n, c.isDigit = true := fun _ hc => isDigit_of_mem_toDigits hc
  have hcount : countDigits 0 (Nat.toDigits 10 n) = .ok n := by
    have := countDigits_eq_ok (n := 0) hd (by rwa [Nat.ofDigitChars_ten_toDigits])
    rwa [Nat.ofDigitChars_ten_toDigits] at this
  -- A number has digits, and the first of them is no sign.
  have hread : readCount (Nat.toDigits 10 n) = countDigits 0 (Nat.toDigits 10 n) := by
    cases hds : Nat.toDigits 10 n with
    | nil => exact absurd hds Nat.toDigits_ne_nil
    | cons c cs =>
      have hc : c ≠ '+' := by
        rintro rfl
        exact absurd (hd '+' (hds ▸ List.mem_cons_self)) (by decide)
      unfold readCount
      split
      · next heq => cases heq
      · next heq => exact absurd (List.cons.inj heq).1 hc
      · next heq => exact absurd (List.cons.inj heq).1 hc
      · rfl
  rw [readCount?, hread, hcount]
  rfl

end EventPipeline.Text
