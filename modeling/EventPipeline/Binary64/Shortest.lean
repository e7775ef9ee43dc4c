import EventPipeline.Binary64.Basic

/-!
The fewest decimal digits that read back as a given double. The numbers that read back are those
of an interval around the double, its ends included when the significand is even. Grids of
1, 2, 3, … digits are tried in turn; the first grid with a point in the interval wins, and of its
two points next to the double the nearer one is taken. Seventeen digits always suffice.
-/

namespace EventPipeline.Binary64

/-- A decimal number `digits · 10 ^ exponent`. -/
structure Decimal where
  digits : Nat
  exponent : Int
deriving DecidableEq, Repr

/-- Which of two equally near decimals is taken. -/
inductive Tie where
  | toEven
  | up
deriving DecidableEq, Repr

/-- A positive number, and the interval of the numbers that round to it, over one denominator. -/
structure Span where
  low : Nat
  value : Nat
  high : Nat
  den : Nat
  /-- Whether the ends belong to the interval. -/
  closed : Bool

/-- The numbers that round to a double: half-way to its neighbours on both sides. -/
def span (x : Binary64) : Span :=
  let up := 1 <<< (x.scale - 2).toNat
  let m := 4 * x.significand
  let nearBelow := x.fractionBits = 0 ∧ 1 < x.exponentBits
  { low := (if nearBelow then m - 1 else m - 2) * up
    value := m * up
    high := (m + 2) * up
    den := 1 <<< (2 - x.scale).toNat
    closed := x.significand % 2 = 0 }

namespace Span

/-- The interval counted in units of `10 ^ e`. -/
def inUnits (s : Span) (e : Int) : Span :=
  let up := Nat.pow 10 (-e).toNat
  { s with low := s.low * up, value := s.value * up, high := s.high * up,
           den := s.den * Nat.pow 10 e.toNat }

/-- Whether the integer `n` lies in the interval. -/
def contains (s : Span) (n : Nat) : Bool :=
  if s.closed then s.low ≤ n * s.den && n * s.den ≤ s.high
  else s.low < n * s.den && n * s.den < s.high

/-- The integer of the interval nearest to the value, if it holds an integer next to the value. -/
def nearest? (s : Span) (tie : Tie) : Option Nat :=
  let below := s.value / s.den
  let twice := 2 * (s.value % s.den)
  let upward := s.den < twice ∨ (s.den = twice ∧ (tie = .up ∨ below % 2 = 1))
  match s.contains below, s.contains (below + 1) with
  | true, true => some (if upward then below + 1 else below)
  | true, false => some below
  | false, true => some (below + 1)
  | false, false => none

/-- The greatest `e` with `10 ^ e` at most the value, searched upwards from `e` in `n` steps. -/
def leadingPlace (s : Span) : (n : Nat) → (e : Int) → Int
  | 0, e => e
  | n + 1, e =>
    let next := s.inUnits (e + 1)
    if next.den ≤ next.value then leadingPlace s n (e + 1) else e

/-- The first hit on the grids whose last place is `e`, `e - 1`, and so on. -/
def firstHit (s : Span) (tie : Tie) : (n : Nat) → (e : Int) → Decimal
  | 0, e => ⟨(s.inUnits e).value / (s.inUnits e).den, e⟩
  | n + 1, e =>
    match (s.inUnits e).nearest? tie with
    | some digits => ⟨digits, e⟩
    | none => firstHit s tie n (e - 1)

end Span

/-- Moves trailing zeros of the digits into the exponent. -/
def Decimal.strip (d : Decimal) : (n : Nat) → Decimal
  | 0 => d
  | n + 1 => if d.digits % 10 = 0 then Decimal.strip ⟨d.digits / 10, d.exponent + 1⟩ n else d

/-- The fewest digits that read back as the double, for a finite double other than zero. -/
def shortest (x : Binary64) (tie : Tie) : Decimal :=
  let s := x.span
  let estimate := (x.significand.log2 + x.scale) * 30103 / 100000 - 1
  (s.firstHit tie 17 (s.leadingPlace 4 estimate)).strip 18

example : shortest ⟨0x3FF0000000000000⟩ .toEven = ⟨1, 0⟩ := by decide +kernel
example : shortest ⟨0x3FB999999999999A⟩ .toEven = ⟨1, -1⟩ := by decide +kernel
example : shortest ⟨1⟩ .toEven = ⟨5, -324⟩ := by decide +kernel

end EventPipeline.Binary64
