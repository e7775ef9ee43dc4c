import EventPipeline.Instant.Basic
import EventPipeline.Text.Blank

/-!
Instants as text. They are written as `YYYY-MM-DDTHH:MM:SSZ`, with three, six or nine places of
the second where needed. Reading is more liberal: a space may stand for the `T`, blanks may stand
between the parts, numbers may have fewer digits, the second may have any number of places, and an
offset from universal time is taken into account.
-/

namespace EventPipeline.Instant

/-- A number with at least `width` digits. -/
def padded (width n : Nat) : List Char :=
  let digits := Nat.toDigits 10 n
  List.replicate (width - digits.length) '0' ++ digits

/-- A year of fewer or more than four digits, and a year before the first, needs a sign. -/
def yearChars (year : Int) : List Char :=
  if 0 ≤ year ∧ year ≤ 9999 then padded 4 year.toNat
  else (if year < 0 then '-' else '+') :: padded 4 year.natAbs

/-- The places of a second that are not all zeros, in groups of three. -/
def fractionChars (nanosecond : Nat) : List Char :=
  if nanosecond = 0 then []
  else if nanosecond % 1000000 = 0 then '.' :: padded 3 (nanosecond / 1000000)
  else if nanosecond % 1000 = 0 then '.' :: padded 6 (nanosecond / 1000)
  else '.' :: padded 9 nanosecond

def text (t : Instant) : String :=
  String.ofList <|
    yearChars t.date.year ++ '-' :: padded 2 t.date.month ++ '-' :: padded 2 t.date.day ++
      'T' :: padded 2 (t.minute / 60) ++ ':' :: padded 2 (t.minute % 60) ++
      ':' :: padded 2 t.second ++ fractionChars t.nanosecond ++ ['Z']

def isDigit (c : Char) : Bool := '0' ≤ c && c ≤ '9'

/-- The number that digits stand for. -/
def digitsValue (digits : List Char) : Nat :=
  digits.foldl (fun n c => 10 * n + (c.toNat - '0'.toNat)) 0

/-- Takes a number of one digit or more, and of at most `width` digits, off a text. -/
def takeNumber? (width : Nat) (cs : List Char) : Option (Nat × List Char) :=
  let digits := (cs.take width).takeWhile isDigit
  if digits.isEmpty then none else some (digitsValue digits, cs.drop digits.length)

/-- Takes a number of at most two digits, with blanks on both sides, off a text. -/
def takePart? (cs : List Char) : Option (Nat × List Char) :=
  (takeNumber? 2 (Text.trimStart cs)).map fun (n, rest) => (n, Text.trimStart rest)

/-- Takes a year off a text; a signed year may have any number of digits. -/
def takeYear? (cs : List Char) : Option (Int × List Char) :=
  let year : Option (Int × List Char) :=
    match Text.trimStart cs with
    | '-' :: rest => (takeNumber? rest.length rest).map fun (n, rest) => (-(n : Int), rest)
    | '+' :: rest => (takeNumber? rest.length rest).map fun (n, rest) => ((n : Int), rest)
    | rest => (takeNumber? 4 rest).map fun (n, rest) => ((n : Int), rest)
  year.map fun (y, rest) => (y, Text.trimStart rest)

/-- Takes a given character off a text. -/
def takeChar? (c : Char) : List Char → Option (List Char)
  | d :: rest => if d = c then some rest else none
  | [] => none

/-- Takes a date off a text. -/
def takeDate? (cs : List Char) : Option (Date × List Char) := do
  let (year, cs) ← takeYear? cs
  let (month, cs) ← takePart? (← takeChar? '-' cs)
  let (day, cs) ← takeNumber? 2 (Text.trimStart (← takeChar? '-' cs))
  some (⟨year, month, day⟩, cs)

/-- Takes the places of a second off a text, as nanoseconds; further places are dropped. -/
def takeFraction? : List Char → Option (Nat × List Char)
  | '.' :: cs =>
    match cs.takeWhile isDigit with
    | [] => none
    | digits =>
      let kept := digits.take 9
      some (digitsValue kept * Nat.pow 10 (9 - kept.length), cs.dropWhile isDigit)
  | cs => some (0, cs)

/-- Two digits below `bound`, in front of a text. -/
def takePair? (bound : Nat) : List Char → Option (Nat × List Char)
  | a :: b :: rest =>
    let n := digitsValue [a, b]
    if isDigit a && isDigit b && n < bound then some (n, rest) else none
  | _ => none

/-- Takes the offset from universal time off a text, in minutes. -/
def takeOffset? : List Char → Option (Int × List Char)
  | 'Z' :: rest | 'z' :: rest => some (0, rest)
  | u :: t :: c :: rest =>
    if [u, t, c].map Char.toLower = ['u', 't', 'c'] then some (0, rest)
    else do
      let negative ← if u = '+' then some false
        else if u = '-' || u = '\u2212' then some true else none
      let (hours, cs) ← takePair? 24 (t :: c :: rest)
      let (minutes, cs) ← takePair? 60 (cs.dropWhile fun c => c == ':' || Text.isBlank c)
      let offset : Int := hours * 60 + minutes
      some (if negative then -offset else offset, cs)
  | _ => none

/-- Whether a time of day has these hours, minutes and seconds. -/
def isTime (hour minute second : Nat) : Bool := hour < 24 && minute < 60 && second ≤ 60

/-- Reads an instant. -/
def read? (cs : List Char) : Option Instant := do
  let (date, cs) ← takeDate? cs
  let cs ← match cs with
    | 'T' :: rest | 't' :: rest | ' ' :: rest => some rest
    | _ => none
  let (hour, cs) ← takePart? cs
  let (minute, cs) ← takePart? (← takeChar? ':' cs)
  let (second, cs) ← takeNumber? 2 (Text.trimStart (← takeChar? ':' cs))
  let (nanosecond, cs) ← takeFraction? cs
  let (offset, cs) ← takeOffset? (Text.trimStart cs)
  if date.isValid && isTime hour minute second && (Text.trimStart cs).isEmpty then
    utc? { date, minute := hour * 60 + minute, second, nanosecond } offset
  else none

/-- Reads an instant. -/
def ofText? (s : String) : Option Instant := read? s.toList

end EventPipeline.Instant
