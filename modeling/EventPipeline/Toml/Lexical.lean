import EventPipeline.Binary64.Rounding
import EventPipeline.Json.Chars
import EventPipeline.Toml.Basic

/-!
The words of TOML texts: blanks and comments, strings, keys, numbers, dates and times. Each reader
takes its word off the front of a text and returns what is left; `none` means that the text is
broken there.
-/

namespace EventPipeline.Toml

def isBlank (c : Char) : Bool := c == ' ' || c == '\t'

/-- The characters that may stand in comments: no control but the tab. -/
def isPlain (c : Char) : Bool := c == '\t' || (0x20 ≤ c.toNat && c.toNat != 0x7F)

def isDigit (c : Char) : Bool := '0' ≤ c && c ≤ '9'

def skipBlanks (cs : List Char) : List Char := cs.dropWhile isBlank

/-- Skips a comment, up to the end of its line. -/
def skipComment : List Char → List Char
  | '#' :: cs => cs.dropWhile isPlain
  | cs => cs

/-- Takes the end of a line. -/
def takeLineBreak? : List Char → Option (List Char)
  | '\n' :: cs => some cs
  | '\r' :: '\n' :: cs => some cs
  | _ => none

/-- Takes what may follow a value or header on its line, and the line's end. -/
def takeLineEnd? (cs : List Char) : Option (List Char) :=
  match skipComment (skipBlanks cs) with
  | [] => some []
  | rest => takeLineBreak? rest

/-- Skips blanks, line breaks and comments; `inComment` tells whether the start is in a comment. -/
def skipLayout (inComment : Bool) : List Char → List Char
  | '\n' :: cs => skipLayout false cs
  | '\r' :: '\n' :: cs => skipLayout false cs
  | c :: cs =>
    if inComment then (if isPlain c then skipLayout true cs else c :: cs)
    else if isBlank c then skipLayout false cs
    else if c = '#' then skipLayout true cs
    else c :: cs
  | [] => []

/-! ### Strings -/

/-- A character given by its number. -/
def charOf? (n : Nat) : Option Char := if h : n.isValidChar then some (Char.ofNatAux n h) else none

/-- Takes an escape, after its backslash. -/
def takeEscape? : List Char → Option (Char × List Char)
  | 'b' :: cs => some ('\x08', cs)
  | 't' :: cs => some ('\t', cs)
  | 'n' :: cs => some ('\n', cs)
  | 'f' :: cs => some ('\x0c', cs)
  | 'r' :: cs => some ('\r', cs)
  | '"' :: cs => some ('"', cs)
  | '\\' :: cs => some ('\\', cs)
  | 'u' :: a :: b :: c :: d :: cs => do
    let char ← charOf? (← Json.hexUnit? a b c d)
    some (char, cs)
  | 'U' :: a :: b :: c :: d :: e :: f :: g :: h :: cs => do
    let char ← charOf? ((← Json.hexUnit? a b c d) * 0x10000 + (← Json.hexUnit? e f g h))
    some (char, cs)
  | _ => none

/-- Takes the rest of a string with escapes; `done` holds its start, last character first. -/
def takeBasic? : (steps : Nat) → (done : List Char) → List Char → Option (String × List Char)
  | 0, _, _ => none
  | steps + 1, done, cs =>
    match cs with
    | '"' :: cs => some (String.ofList done.reverse, cs)
    | '\\' :: cs =>
      match takeEscape? cs with
      | some (c, cs) => takeBasic? steps (c :: done) cs
      | none => none
    | c :: cs => if isPlain c then takeBasic? steps (c :: done) cs else none
    | [] => none

/-- Takes the rest of a string without escapes. -/
def takeLiteral? (cs : List Char) : Option (String × List Char) :=
  let body := cs.takeWhile fun c => isPlain c && c != '\''
  match cs.drop body.length with
  | '\'' :: rest => some (String.ofList body, rest)
  | _ => none

/-- Takes the end of a string over several lines; up to two more quotes belong to the string. -/
def takeQuotes? (quote : Char) (done : List Char) (cs : List Char) :
    Option (String × List Char) :=
  let n := (cs.takeWhile (· == quote)).length
  if n < 3 then none
  else
    let inside := min (n - 3) 2
    let body := done.reverse ++ List.replicate inside quote
    some (String.ofList body, cs.drop (inside + 3))

/-- Skips blanks and line breaks. -/
def skipBreaks : List Char → List Char
  | '\n' :: cs => skipBreaks cs
  | '\r' :: '\n' :: cs => skipBreaks cs
  | c :: cs => if isBlank c then skipBreaks cs else c :: cs
  | [] => []

/-- After a backslash that ends its line: what follows the line break and the blanks after it. -/
def takeContinuation? (cs : List Char) : Option (List Char) :=
  (takeLineBreak? (skipBlanks cs)).map skipBreaks

/-- Takes the rest of a string over several lines, with escapes if `escapes` says so. -/
def takeLong? (quote : Char) (escapes : Bool) :
    (steps : Nat) → (done : List Char) → List Char → Option (String × List Char)
  | 0, _, _ => none
  | steps + 1, done, cs =>
    match takeQuotes? quote done cs with
    | some result => some result
    | none =>
      match takeLineBreak? cs with
      | some cs => takeLong? quote escapes steps ('\n' :: done) cs
      | none =>
        match cs with
        | [] => none
        | c :: rest =>
          if c = '\\' && escapes then
            match takeContinuation? rest with
            | some rest => takeLong? quote escapes steps done rest
            | none =>
              match takeEscape? rest with
              | some (c, rest) => takeLong? quote escapes steps (c :: done) rest
              | none => none
          else if isPlain c then takeLong? quote escapes steps (c :: done) rest
          else none

/-- A line break right after the opening quotes is left out. -/
def skipFirstBreak (cs : List Char) : List Char := (takeLineBreak? cs).getD cs

/-- Takes a string. -/
def takeString? : List Char → Option (String × List Char)
  | '"' :: '"' :: '"' :: cs => takeLong? '"' true (cs.length + 1) [] (skipFirstBreak cs)
  | '\'' :: '\'' :: '\'' :: cs => takeLong? '\'' false (cs.length + 1) [] (skipFirstBreak cs)
  | '"' :: cs => takeBasic? (cs.length + 1) [] cs
  | '\'' :: cs => takeLiteral? cs
  | _ => none

/-! ### Keys -/

def isKeyChar (c : Char) : Bool :=
  ('a' ≤ c && c ≤ 'z') || ('A' ≤ c && c ≤ 'Z') || isDigit c || c == '_' || c == '-'

/-- Takes one part of a key. -/
def takeKeyPart? : List Char → Option (String × List Char)
  | '"' :: cs => takeBasic? (cs.length + 1) [] cs
  | '\'' :: cs => takeLiteral? cs
  | cs =>
    match cs.takeWhile isKeyChar with
    | [] => none
    | part => some (String.ofList part, cs.dropWhile isKeyChar)

/-- How many parts a key may have, and how deep the lists and tables of a value may nest. -/
def nestingLimit : Nat := 79

/-- Takes a key of at most `parts` parts: its last part, and those before it, last one first. -/
def takeKey? : (parts : Nat) → (before : List String) → List Char →
    Option ((List String × String) × List Char)
  | 0, _, _ => none
  | parts + 1, before, cs =>
    match takeKeyPart? (skipBlanks cs) with
    | none => none
    | some (part, cs) =>
      match skipBlanks cs with
      | '.' :: cs => takeKey? parts (part :: before) cs
      | cs => some ((before.reverse, part), cs)

/-! ### Numbers -/

/-- Takes digits with single underscores between them, as one number and their count. -/
def takeDigits? (digit? : Char → Option Nat) (base : Nat) :
    (n count : Nat) → List Char → Option (Nat × Nat × List Char)
  | n, count, '_' :: c :: cs =>
    match digit? c with
    | some d => if count = 0 then none else takeDigits? digit? base (base * n + d) (count + 1) cs
    | none => none
  | n, count, c :: cs =>
    match digit? c with
    | some d => takeDigits? digit? base (base * n + d) (count + 1) cs
    | none => if count = 0 || c = '_' then none else some (n, count, c :: cs)
  | n, count, [] => if count = 0 then none else some (n, count, [])

def decimalDigit? (c : Char) : Option Nat := (Json.hexValue? c).filter (· < 10)

def takeDecimal? (cs : List Char) : Option (Nat × Nat × List Char) :=
  takeDigits? decimalDigit? 10 0 0 cs

/-- Takes an integer part: a zero, or digits that do not start with one. -/
def takeWhole? : List Char → Option (Nat × List Char)
  | '0' :: cs => some (0, cs)
  | cs => (takeDecimal? cs).map fun (n, _, cs) => (n, cs)

/-- An integer, if 64 bits can hold it. -/
def integer? (n : Int) : Option Value :=
  if -0x8000_0000_0000_0000 ≤ n ∧ n < 0x8000_0000_0000_0000 then some (.integer n) else none

/-- Takes an integer to another base, after its mark. -/
def takeBased? (base : Nat) (cs : List Char) : Option (Value × List Char) := do
  let (n, _, cs) ← takeDigits? (fun c => (Json.hexValue? c).filter (· < base)) base 0 0 cs
  some (← integer? n, cs)

/-- Takes the exponent of a number, after its letter. -/
def takeExponent? (cs : List Char) : Option (Int × List Char) :=
  match cs with
  | '-' :: cs => (takeDecimal? cs).map fun (n, _, cs) => (-(n : Int), cs)
  | '+' :: cs => (takeDecimal? cs).map fun (n, _, cs) => ((n : Int), cs)
  | cs => (takeDecimal? cs).map fun (n, _, cs) => ((n : Int), cs)

/-- A double given by decimal digits; too large a positive one is broken. -/
def double? (negative : Bool) (n : Nat) (e : Int) : Option Value :=
  match Binary64.ofDecimal negative n e with
  | some x => some (.double x)
  | none => if negative then some (.double (.ofMagnitude true Binary64.infinityBits)) else none

/-- Takes what may follow the integer part `n` of a number. -/
def takeTail? (negative : Bool) (n : Nat) (cs : List Char) : Option (Value × List Char) := do
  let (m, places, isWhole, cs) ← match cs with
    | '.' :: cs =>
      (takeDecimal? cs).map fun (d, places, cs) => (n * Nat.pow 10 places + d, places, false, cs)
    | cs => some (n, 0, true, cs)
  let exponent ← match cs with
    | 'e' :: cs | 'E' :: cs => (takeExponent? cs).map some
    | _ => some none
  match exponent with
  | some (e, cs) => some (← double? negative m (e - places), cs)
  | none =>
    if isWhole then some (← integer? (if negative then -m else m), cs)
    else some (← double? negative m (-places), cs)

/-- Takes a number after its sign. -/
def takeUnsigned? (negative : Bool) : List Char → Option (Value × List Char)
  | 'i' :: 'n' :: 'f' :: cs => some (.double (.ofMagnitude negative Binary64.infinityBits), cs)
  | 'n' :: 'a' :: 'n' :: cs =>
    some (.double (.ofMagnitude negative (Binary64.infinityBits + 1)), cs)
  | cs => do
    let (n, cs) ← takeWhole? cs
    takeTail? negative n cs

/-- Takes a number. -/
def takeNumber? : List Char → Option (Value × List Char)
  | '0' :: 'x' :: cs => takeBased? 16 cs
  | '0' :: 'o' :: cs => takeBased? 8 cs
  | '0' :: 'b' :: cs => takeBased? 2 cs
  | '+' :: cs => takeUnsigned? false cs
  | '-' :: cs => takeUnsigned? true cs
  | cs => takeUnsigned? false cs

/-! ### Dates and times -/

/-- Takes `count` digits as a number from `low` to `high`. -/
def takeField? (count low high : Nat) (cs : List Char) : Option (Nat × List Char) :=
  let digits := cs.take count
  let n := digits.foldl (fun n c => 10 * n + (c.toNat - '0'.toNat)) 0
  if digits.length = count && digits.all isDigit && low ≤ n && n ≤ high then
    some (n, cs.drop count)
  else none

def takeMark? (c : Char) : List Char → Option (List Char)
  | d :: cs => if d = c then some cs else none
  | [] => none

def daysIn (year month : Nat) : Nat :=
  if month = 2 then (if year % 4 = 0 && (year % 100 ≠ 0 || year % 400 = 0) then 29 else 28)
  else if month = 4 || month = 6 || month = 9 || month = 11 then 30
  else 31

def takeDate? (cs : List Char) : Option (List Char) := do
  let (year, cs) ← takeField? 4 0 9999 cs
  let (month, cs) ← takeField? 2 1 12 (← takeMark? '-' cs)
  let (_, cs) ← takeField? 2 1 (daysIn year month) (← takeMark? '-' cs)
  some cs

/-- Takes the places of a second, if there are any. -/
def takePlaces? : List Char → Option (List Char)
  | '.' :: cs => if (cs.takeWhile isDigit).isEmpty then none else some (cs.dropWhile isDigit)
  | cs => some cs

def takeTime? (cs : List Char) : Option (List Char) := do
  let (_, cs) ← takeField? 2 0 23 cs
  let (_, cs) ← takeField? 2 0 59 (← takeMark? ':' cs)
  let (_, cs) ← takeField? 2 0 60 (← takeMark? ':' cs)
  takePlaces? cs

/-- Takes the offset from universal time, if there is one. -/
def takeOffset? : List Char → Option (List Char)
  | 'Z' :: cs | 'z' :: cs => some cs
  | '+' :: cs | '-' :: cs => do
    let (_, cs) ← takeField? 2 0 23 cs
    let (_, cs) ← takeField? 2 0 59 (← takeMark? ':' cs)
    some cs
  | cs => some cs

/-- Takes the time after a date, if there is one. -/
def takeDayTime? : List Char → Option (List Char)
  | c :: cs =>
    if c = 'T' || c = 't' || c = ' ' then
      match takeTime? cs with
      | some cs => takeOffset? cs
      | none => some (c :: cs)
    else some (c :: cs)
  | [] => some []

/-- Whether a text starts like a date. -/
def startsDate (cs : List Char) : Bool :=
  (takeField? 4 0 9999 cs).any fun (_, rest) => (takeMark? '-' rest).isSome

/-- Whether a text starts like a time of day. -/
def startsTime (cs : List Char) : Bool :=
  (takeField? 2 0 23 cs).any fun (_, rest) => (takeMark? ':' rest).isSome

/-- Takes a date, a time or a number. -/
def takeScalar? (cs : List Char) : Option (Value × List Char) :=
  if startsDate cs then do
    let cs ← takeDayTime? (← takeDate? cs)
    some (.time, cs)
  else if startsTime cs then (takeTime? cs).map fun cs => (.time, cs)
  else takeNumber? cs

end EventPipeline.Toml
