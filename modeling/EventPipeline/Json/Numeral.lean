import EventPipeline.Binary64.Arithmetic
import EventPipeline.Binary64.Shortest
import EventPipeline.Text.Count
import EventPipeline.Tree.Basic

/-!
Numbers in JSON texts: a minus sign or none, an integer part without leading zeros, and optional
fraction and exponent. A numeral without fraction and exponent that 64 bits can hold is an
integer; all others, and the negative zero, are doubles. A double is computed from the digits that
64 bits can hold and one power of ten, and need not be the one nearest to the number.
-/

namespace EventPipeline.Json

/-- A number as it stands in a text. -/
structure Numeral where
  negative : Bool
  /-- The digits of the integer part. -/
  whole : List Char
  /-- The digits after the point. -/
  fraction : List Char
  exponent : Option Int
deriving DecidableEq, Repr

namespace Numeral

def isDigit (c : Char) : Bool := '0' ≤ c && c ≤ '9'

/-- Appends decimal digits to the number `n`. -/
def appendDigits (n : Nat) (digits : List Char) : Nat :=
  digits.foldl (fun n c => 10 * n + (c.toNat - '0'.toNat)) n

/-- Takes one digit or more off the front of a text. -/
def takeDigits? (cs : List Char) : Option (List Char × List Char) :=
  match cs.span isDigit with
  | ([], _) => none
  | split => some split

/-- Takes an exponent off the front of a text, 0 if there is none; `none` if it is broken. -/
def takeExponent? (cs : List Char) : Option (Option Int × List Char) :=
  let signed (negative : Bool) (cs : List Char) :=
    (takeDigits? cs).map fun (digits, rest) =>
      let n : Int := appendDigits 0 digits
      (some (if negative then -n else n), rest)
  match cs with
  | 'e' :: '-' :: rest | 'E' :: '-' :: rest => signed true rest
  | 'e' :: '+' :: rest | 'E' :: '+' :: rest => signed false rest
  | 'e' :: rest | 'E' :: rest => signed false rest
  | rest => some (none, rest)

/-- Takes a fraction off the front of a text; `none` if it is broken. -/
def takeFraction? : List Char → Option (List Char × List Char)
  | '.' :: rest => takeDigits? rest
  | rest => some ([], rest)

/-- Takes the integer part of a number off the front of a text. -/
def takeWhole? (cs : List Char) : Option (List Char × List Char) :=
  match takeDigits? cs with
  | some ('0' :: _ :: _, _) => none
  | split => split

/-- Takes a number off the front of a text. -/
def take? (cs : List Char) : Option (Numeral × List Char) := do
  let (negative, cs) := match cs with
    | '-' :: rest => (true, rest)
    | rest => (false, rest)
  let (whole, cs) ← takeWhole? cs
  let (fraction, cs) ← takeFraction? cs
  let (exponent, cs) ← takeExponent? cs
  some ({ negative, whole, fraction, exponent }, cs)

/-- Whether there is neither fraction nor exponent. -/
def isWhole (n : Numeral) : Bool := n.fraction.isEmpty && n.exponent.isNone

/-- The integer that a numeral stands for. -/
def integer? (n : Numeral) : Option Integer :=
  let digits := appendDigits 0 n.whole
  if n.isWhole && !(n.negative && digits == 0) then
    Integer.ofInt? (if n.negative then -digits else digits)
  else none

/-- Appends decimal digits to the number `n` until 64 bits cannot hold it; also tells how many
digits are left. -/
def fitDigits (n : Nat) : List Char → Nat × Nat
  | [] => (n, 0)
  | c :: cs =>
    let next := 10 * n + (c.toNat - '0'.toNat)
    if next < UInt64.size then fitDigits next cs else (n, cs.length + 1)

/-- The digits that 64 bits can hold, and their place. Of the integer part and of the fraction, the
digits that are left are passed over. -/
def decimal (n : Numeral) : Binary64.Decimal :=
  let (whole, left) := fitDigits 0 n.whole
  let (digits, left') := fitDigits whole n.fraction
  { digits, exponent := n.exponent.getD 0 + left - (n.fraction.length - left' : Nat) }

/-- The double that a numeral is read as; too large a number has none. -/
def double? (n : Numeral) : Option Binary64 :=
  ((Binary64.ofRatio n.decimal.digits 1).timesTen? n.decimal.exponent).map (·.withSign n.negative)

/-- The number that a numeral is read as. -/
def number? (n : Numeral) : Option Number :=
  match n.integer? with
  | some i => some (.integer i)
  | none => n.double?.map .double

end Numeral

end EventPipeline.Json
