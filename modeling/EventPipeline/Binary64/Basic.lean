/-!
Double-precision numbers, as the words that represent them. A finite double is `± m · 2 ^ q` with
`m < 2 ^ 53` and `-1074 ≤ q`; all arithmetic on doubles here is exact arithmetic on `m` and `q`.
-/

namespace EventPipeline

/-- A double, given by its sign bit, eleven exponent bits and 52 fraction bits. -/
structure Binary64 where
  bits : UInt64
deriving DecidableEq, Inhabited, Repr

namespace Binary64

/-- The place of the sign bit, `2 ^ 63`. -/
abbrev signBit : Nat := 0x8000_0000_0000_0000

/-- The place of the lowest exponent bit, `2 ^ 52`, which a normal significand starts with. -/
abbrev hiddenBit : Nat := 0x10_0000_0000_0000

/-- The word without its sign bit. -/
def magnitude (x : Binary64) : Nat := x.bits.toNat % signBit

def isNegative (x : Binary64) : Bool := signBit ≤ x.bits.toNat

def exponentBits (x : Binary64) : Nat := x.magnitude / hiddenBit

def fractionBits (x : Binary64) : Nat := x.magnitude % hiddenBit

/-- All exponent bits are set on the infinities and on what is not a number. -/
def isFinite (x : Binary64) : Bool := x.exponentBits != 2047

def isNaN (x : Binary64) : Bool := !x.isFinite && x.fractionBits != 0

def isZero (x : Binary64) : Bool := x.magnitude == 0

/-- The integer `m` of `± m · 2 ^ q`. -/
def significand (x : Binary64) : Nat :=
  if x.exponentBits = 0 then x.fractionBits else hiddenBit + x.fractionBits

/-- The exponent `q` of `± m · 2 ^ q`. -/
def scale (x : Binary64) : Int :=
  if x.exponentBits = 0 then -1074 else (x.exponentBits : Int) - 1075

/-- The double with the given sign and magnitude bits. -/
def ofMagnitude (negative : Bool) (magnitude : Nat) : Binary64 :=
  ⟨UInt64.ofNat (if negative then signBit + magnitude else magnitude)⟩

def zero (negative : Bool) : Binary64 := ofMagnitude negative 0

/-- Equality as numbers: the zeros are equal, and what is not a number equals nothing. -/
def equal (x y : Binary64) : Bool :=
  !x.isNaN && !y.isNaN && (x == y || (x.isZero && y.isZero))

theorem significand_lt (x : Binary64) : x.significand < 2 * hiddenBit := by
  have h : x.fractionBits < hiddenBit := Nat.mod_lt _ (by decide)
  unfold significand
  split <;> omega

example : (zero true).equal (zero false) = true := by decide

end Binary64

end EventPipeline
