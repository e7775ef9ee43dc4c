/-!
Counts written in decimal: an optional `+`, then digits, below `2 ^ 64`. Array indices and worker
counts are read this way.
-/

namespace EventPipeline.Text

/-- Counts stay below `2 ^ 64`. -/
def countLimit : Nat := 0x1_0000_0000_0000_0000

/-- Why a text is not a count. -/
inductive CountFault where
  | empty
  | notADigit
  | tooLarge
deriving DecidableEq, Repr

def CountFault.message : CountFault → String
  | .empty => "cannot parse integer from empty string"
  | .notADigit => "invalid digit found in string"
  | .tooLarge => "number too large to fit in target type"

/-- The value of an ASCII decimal digit. -/
def digit? (c : Char) : Option Nat :=
  if '0' ≤ c ∧ c ≤ '9' then some (c.toNat - '0'.toNat) else none

/-- Appends decimal digits to the number `n`; the first fault from the left is reported. -/
def countDigits (n : Nat) : List Char → Except CountFault Nat
  | [] => .ok n
  | c :: cs =>
    match digit? c with
    | none => .error .notADigit
    | some d => if 10 * n + d < countLimit then countDigits (10 * n + d) cs else .error .tooLarge

/-- Reads a count. -/
def readCount : List Char → Except CountFault Nat
  | [] => .error .empty
  | ['+'] => .error .notADigit
  | '+' :: cs => countDigits 0 cs
  | cs => countDigits 0 cs

/-- Reads a count, forgetting why a text is none. -/
def readCount? (cs : List Char) : Option Nat := (readCount cs).toOption

theorem countDigits_lt {n m : Nat} {cs : List Char} (hn : n < countLimit)
    (h : countDigits n cs = .ok m) : m < countLimit := by
  induction cs generalizing n with
  | nil => simp only [countDigits, Except.ok.injEq] at h; exact h ▸ hn
  | cons c cs ih =>
    simp only [countDigits] at h
    split at h
    · simp at h
    · split at h
      · exact ih ‹_› h
      · simp at h

/-- A count is below `2 ^ 64`. -/
theorem readCount_lt {cs : List Char} {n : Nat} (h : readCount cs = .ok n) : n < countLimit := by
  have hz : 0 < countLimit := by decide
  unfold readCount at h
  split at h
  · simp at h
  · simp at h
  · exact countDigits_lt hz h
  · exact countDigits_lt hz h

theorem readCount?_lt {cs : List Char} {n : Nat} (h : readCount? cs = some n) : n < countLimit := by
  rw [readCount?] at h
  cases hn : readCount cs with
  | error fault =>
    rw [hn] at h
    cases h
  | ok m =>
    rw [hn] at h
    exact Option.some.inj h ▸ readCount_lt hn

end EventPipeline.Text
