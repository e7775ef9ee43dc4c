import EventPipeline.Binary64.Shortest

/-!
The two written forms of a double. The *scientific* form, of JSON texts, is positional in the
middle range and has an exponent outside it, and always shows that it is no integer. The *plain*
form, which filters compare with, never has an exponent, and no point unless it needs one.
-/

namespace EventPipeline.Binary64

/-- The decimal digits of a number, as characters. -/
def digitChars (n : Nat) : List Char := Nat.toDigits 10 n

/-- Digits with a point after the first `whole` of them; zeros fill both ends as needed. -/
def positional (digits : List Char) (whole : Int) : List Char × List Char :=
  if whole ≤ 0 then (['0'], List.replicate (-whole).toNat '0' ++ digits)
  else
    let n := whole.toNat
    (digits.take n ++ List.replicate (n - digits.length) '0', digits.drop n)

/-- The sign of a double, in front of its digits. -/
def signChars (x : Binary64) : List Char := if x.isNegative then ['-'] else []

/-- Texts of the values that have no digits. -/
def specialText (x : Binary64) : List Char :=
  if x.isNaN then "NaN".toList else x.signChars ++ "inf".toList

/-- The plain form: all digits before and after the point, the point only if digits follow. -/
def plainText (x : Binary64) : String :=
  if !x.isFinite then String.ofList x.specialText
  else if x.isZero then String.ofList (x.signChars ++ ['0'])
  else
    let d := x.shortest .up
    let digits := digitChars d.digits
    let (whole, fraction) := positional digits (digits.length + d.exponent)
    let tail := if fraction = [] then [] else '.' :: fraction
    String.ofList (x.signChars ++ whole ++ tail)

/-- The plain form with `.0` added where it would look like an integer, as TOML texts have it. -/
def pointedText (x : Binary64) : String :=
  let text := x.plainText
  if x.isFinite && !text.toList.contains '.' then text ++ ".0" else text

/-- The decimal exponents of the first digit that the scientific form writes without exponent. -/
def writtenPositionally (leading : Int) : Bool := -5 ≤ leading && leading ≤ 15

/-- An exponent with its sign. -/
def exponentChars (e : Int) : List Char :=
  (if e < 0 then ['e', '-'] else ['e', '+']) ++ digitChars e.natAbs

/-- The scientific form. -/
def scientificText (x : Binary64) : String :=
  if !x.isFinite then String.ofList x.specialText
  else if x.isZero then String.ofList (x.signChars ++ "0.0".toList)
  else
    let d := x.shortest .toEven
    let digits := digitChars d.digits
    let leading := digits.length + d.exponent - 1
    let body :=
      if writtenPositionally leading then
        let (whole, fraction) := positional digits (leading + 1)
        whole ++ '.' :: (if fraction = [] then ['0'] else fraction)
      else
        let tail := if digits.length ≤ 1 then [] else '.' :: digits.drop 1
        digits.take 1 ++ tail ++ exponentChars leading
    String.ofList (x.signChars ++ body)

end EventPipeline.Binary64
