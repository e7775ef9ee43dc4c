import EventPipeline.Binary64.Basic

/-!
The double nearest to a decimal number. Of two equally near doubles the one with the even
significand is taken. Numbers too large for a double have none.
-/

namespace EventPipeline.Binary64

/-- The nearest integer to `num / den`, an exact half going to the even neighbour. -/
def roundDiv (num den : Nat) : Nat :=
  let quotient := num / den
  let twice := 2 * (num % den)
  if twice < den then quotient
  else if twice = den then quotient + quotient % 2
  else quotient + 1

/-- The exponent `q` for which `num / den`, in units of `2 ^ q`, fills 53 bits, or the least one. -/
def scaleOf (num den : Nat) : Int :=
  let estimate : Int := (num.log2 : Int) - den.log2 - 53
  let floor := (num <<< (-estimate).toNat) / (den <<< estimate.toNat)
  max (if floor < 2 * hiddenBit then estimate else estimate + 1) (-1074)

/--
The magnitude bits of the double nearest to `num / den`. A significand that rounds up to `2 ^ 53`
carries into the exponent bits, which is the right double.
-/
def nearest (num den : Nat) : Nat :=
  let q := scaleOf num den
  (q + 1074).toNat * hiddenBit + roundDiv (num <<< (-q).toNat) (den <<< q.toNat)

/-- The magnitude bits of infinity. -/
def infinityBits : Nat := 2047 * hiddenBit

/--
The double nearest to `± n · 10 ^ e`, `none` when that is too large. Exponents far outside the
range are decided by the number of digits alone.
-/
def ofDecimal (negative : Bool) (n : Nat) (e : Int) : Option Binary64 :=
  let places : Int := (n.log2 : Int) * 301 / 1000 + e
  if n = 0 then some (zero negative)
  else if 400 < places then none
  else if places < -400 then some (zero negative)
  else
    let bits := nearest (n * Nat.pow 10 e.toNat) (Nat.pow 10 (-e).toNat)
    if bits < infinityBits then some (ofMagnitude negative bits) else none

example : ofDecimal false 1 0 = some ⟨0x3FF0000000000000⟩ := by decide +kernel
example : ofDecimal true 15 (-1) = some ⟨0xBFF8000000000000⟩ := by decide +kernel
example : ofDecimal false 1 400 = none := by decide +kernel
example : ofDecimal false 5 (-324) = some ⟨1⟩ := by decide +kernel

end EventPipeline.Binary64
