/-!
Characters of JSON strings: how they are written, and how they are read. A character that is not
a control stands for itself, except for the quote and the backslash; every character may be
written with an escape, those above `U+FFFF` as two halves.
-/

namespace EventPipeline.Json

/-- A hexadecimal digit in lower case. -/
def hexChar (n : Nat) : Char := Nat.digitChar (n % 16)

/-- One character as it is written in a string. -/
def escaped (c : Char) : List Char :=
  if c = '"' then ['\\', '"']
  else if c = '\\' then ['\\', '\\']
  else if c = '\x08' then ['\\', 'b']
  else if c = '\x0c' then ['\\', 'f']
  else if c = '\n' then ['\\', 'n']
  else if c = '\r' then ['\\', 'r']
  else if c = '\t' then ['\\', 't']
  else if c.toNat < 0x20 then ['\\', 'u', '0', '0', hexChar (c.toNat / 16), hexChar c.toNat]
  else [c]

/-- The value of a hexadecimal digit of either case. -/
def hexValue? (c : Char) : Option Nat :=
  let n := c.toNat
  if '0' ≤ c ∧ c ≤ '9' then some (n - '0'.toNat)
  else if 'a' ≤ c ∧ c ≤ 'f' then some (n - 'a'.toNat + 10)
  else if 'A' ≤ c ∧ c ≤ 'F' then some (n - 'A'.toNat + 10)
  else none

/-- The value of four hexadecimal digits. -/
def hexUnit? (a b c d : Char) : Option Nat := do
  let a ← hexValue? a
  let b ← hexValue? b
  let c ← hexValue? c
  let d ← hexValue? d
  some (((a * 16 + b) * 16 + c) * 16 + d)

/-- The character that a one-letter escape stands for. -/
def unescape? : Char → Option Char
  | '"' => some '"'
  | '\\' => some '\\'
  | '/' => some '/'
  | 'b' => some '\x08'
  | 'f' => some '\x0c'
  | 'n' => some '\n'
  | 'r' => some '\r'
  | 't' => some '\t'
  | _ => none

/-- The characters read so far, last one first, and the first half that waits for its second. -/
structure StringState where
  chars : List Char := []
  /-- Whether every half so far has met its partner. -/
  sound : Bool := true
  half : Option Nat := none

namespace StringState

def isHighHalf (unit : Nat) : Bool := 0xD800 ≤ unit && unit < 0xDC00

def isLowHalf (unit : Nat) : Bool := 0xDC00 ≤ unit && unit < 0xE000

/-- Adds a character that is no half of another. -/
def push (s : StringState) (c : Char) : StringState :=
  { chars := c :: s.chars, sound := s.sound && s.half.isNone, half := none }

/-- Adds a unit that was given by four hexadecimal digits. -/
def pushUnit (s : StringState) (unit : Nat) : StringState :=
  if isHighHalf unit then
    { s with sound := s.sound && s.half.isNone, half := some unit }
  else if isLowHalf unit then
    match s.half with
    | some high =>
      let c := Char.ofNat (0x10000 + (high - 0xD800) * 0x400 + (unit - 0xDC00))
      { s with chars := c :: s.chars, half := none }
    | none => { s with sound := false }
  else s.push (Char.ofNat unit)

/-- The text, unless a half was left without its partner. -/
def finish (s : StringState) : Option String :=
  if s.sound && s.half.isNone then some (String.ofList s.chars.reverse) else none

end StringState

/--
Takes the rest of a string, up to the closing quote, off the front of a text. The first part of
the answer is the string's text, if the string has one.
-/
def takeString? (s : StringState) : List Char → Option (Option String × List Char)
  | '"' :: rest => some (s.finish, rest)
  | '\\' :: 'u' :: a :: b :: c :: d :: rest =>
    match hexUnit? a b c d with
    | some unit => takeString? (s.pushUnit unit) rest
    | none => none
  | '\\' :: e :: rest =>
    match unescape? e with
    | some c => takeString? (s.push c) rest
    | none => none
  | c :: rest => if c.toNat < 0x20 || c == '\\' then none else takeString? (s.push c) rest
  | [] => none

end EventPipeline.Json
