import EventPipeline.Binary64.Rounding

/-!
Arithmetic on doubles without sign. Every operation gives the double nearest to its exact result;
results of several operations may be off by more than one rounding.
-/

namespace EventPipeline.Binary64

/-- The double nearest to `num / den`, infinity if that is too large. -/
def ofRatio (num den : Nat) : Binary64 :=
  ofMagnitude false (if num = 0 then 0 else min (nearest num den) infinityBits)

/-- The product of two finite doubles. -/
def times (x y : Binary64) : Binary64 :=
  let q := x.scale + y.scale
  ofRatio ((x.significand * y.significand) <<< q.toNat) (1 <<< (-q).toNat)

/-- The quotient of two finite doubles; the second one is not zero. -/
def dividedBy (x y : Binary64) : Binary64 :=
  let q := x.scale - y.scale
  ofRatio (x.significand <<< q.toNat) (y.significand <<< (-q).toNat)

/-- The double nearest to `10 ^ n`. -/
def powerOfTen (n : Nat) : Binary64 := ofRatio (Nat.pow 10 n) 1

/-- The largest `n` for which `10 ^ n` is in the range of doubles. -/
def largestPower : Nat := 308

/--
Multiplies with `10 ^ e`, which takes one product or quotient as long as there is a double for that
power; a smaller number is divided in steps. `none` when the result is too large.
-/
def timesTen? (x : Binary64) (e : Int) : Option Binary64 :=
  if e.natAbs ≤ largestPower then
    if 0 ≤ e then (some (x.times (powerOfTen e.natAbs))).filter isFinite
    else some (x.dividedBy (powerOfTen e.natAbs))
  else if x.isZero then some x
  else if 0 ≤ e then none
  else (x.dividedBy (powerOfTen largestPower)).timesTen? (e + largestPower)
termination_by (-e).toNat
decreasing_by simp only [largestPower] at *; omega

/-- The double with the given sign. -/
def withSign (x : Binary64) (negative : Bool) : Binary64 := ofMagnitude negative x.magnitude

example : (ofRatio 3 1).timesTen? 23 = some ⟨0x44CFC3842BD1F071⟩ := by decide +kernel
example : (ofRatio 5 1).timesTen? (-324) = some ⟨1⟩ := by decide +kernel

end EventPipeline.Binary64
