import EventPipeline.Json.Numeral
import EventPipeline.Binary64.Text
import EventPipeline.Proofs.Text.Digits

/-!
Numbers are taken off a text as they are written: `Numeral.take?` takes the characters of a proper
numeral off the front of a text that goes on with something else.
-/

namespace EventPipeline.Json

namespace Numeral

/-- The number as it is written. -/
def chars (n : Numeral) : List Char :=
  (if n.negative then ['-'] else []) ++ n.whole ++
    (if n.fraction = [] then [] else '.' :: n.fraction) ++ n.exponent.elim [] Binary64.exponentChars

/-- All digits are digits, at least one of them before the point; none of several is a zero that
leads. -/
structure Proper (n : Numeral) : Prop where
  isDigit_whole : ∀ c ∈ n.whole, c.isDigit = true
  isDigit_fraction : ∀ c ∈ n.fraction, c.isDigit = true
  ne_nil : n.whole ≠ []
  leading : n.whole.head? = some '0' → n.whole = ['0']

end Numeral

/-- A text does not go on with what could belong to a number. -/
def Stops (rest : List Char) : Prop :=
  ∀ c, rest.head? = some c → c.isDigit = false ∧ c ≠ '.' ∧ c ≠ 'e' ∧ c ≠ 'E'

namespace Numeral

theorem appendDigits_eq (n : Nat) (cs : List Char) :
    appendDigits n cs = Nat.ofDigitChars 10 cs n :=
  Nat.ofDigitChars_eq_foldl.symm

/-- All digits are kept if they fit. -/
theorem fitDigits_of_lt {n : Nat} {cs : List Char} (h : Nat.ofDigitChars 10 cs n < UInt64.size) :
    fitDigits n cs = (Nat.ofDigitChars 10 cs n, 0) := by
  induction cs generalizing n with
  | nil => rfl
  | cons c cs ih =>
    rw [Nat.ofDigitChars_cons] at h ⊢
    have hnext := Nat.lt_of_le_of_lt (Text.le_ofDigitChars cs _) h
    rw [fitDigits, if_pos hnext, ih h]

theorem fitDigits_lt {n : Nat} (hn : n < UInt64.size) (cs : List Char) :
    (fitDigits n cs).1 < UInt64.size := by
  induction cs generalizing n with
  | nil => exact hn
  | cons c cs ih =>
    rw [fitDigits]
    split
    · next h => exact ih h
    · exact hn

theorem digits_decimal_lt (n : Numeral) : n.decimal.digits < UInt64.size :=
  fitDigits_lt (fitDigits_lt (by decide) _) _

/-- A numeral whose digits fit is the decimal number that it shows. -/
theorem decimal_of_lt {n : Numeral} {digits : Nat}
    (hdigits : Nat.ofDigitChars 10 (n.whole ++ n.fraction) 0 = digits)
    (hlt : digits < UInt64.size) :
    n.decimal = ⟨digits, n.exponent.getD 0 - n.fraction.length⟩ := by
  rw [Nat.ofDigitChars_append] at hdigits
  subst hdigits
  have hwhole := Nat.lt_of_le_of_lt (Text.le_ofDigitChars n.fraction _) hlt
  simp only [decimal, fitDigits_of_lt hwhole, fitDigits_of_lt hlt, Int.add_zero, Nat.sub_zero,
    Int.ofNat_zero]

theorem takeDigits?_append {ds : List Char} (rest : List Char) (hd : ∀ c ∈ ds, c.isDigit = true)
    (hne : ds ≠ []) (hr : ∀ c, rest.head? = some c → c.isDigit = false) :
    takeDigits? (ds ++ rest) = some (ds, rest) := by
  rw [takeDigits?, Text.span_append (p := isDigit) hd hr]
  cases ds with
  | nil => exact absurd rfl hne
  | cons d ds => rfl

theorem takeWhole?_append {ds : List Char} (rest : List Char) (hd : ∀ c ∈ ds, c.isDigit = true)
    (hne : ds ≠ []) (hl : ds.head? = some '0' → ds = ['0'])
    (hr : ∀ c, rest.head? = some c → c.isDigit = false) :
    takeWhole? (ds ++ rest) = some (ds, rest) := by
  rw [takeWhole?, takeDigits?_append rest hd hne hr]
  split
  · next h =>
    obtain ⟨rfl, -⟩ := Prod.mk.inj (Option.some.inj h)
    cases hl rfl
  · rfl

theorem takeFraction?_append {ds : List Char} (rest : List Char) (hd : ∀ c ∈ ds, c.isDigit = true)
    (hr : ∀ c, rest.head? = some c → c.isDigit = false ∧ c ≠ '.') :
    takeFraction? ((if ds = [] then [] else '.' :: ds) ++ rest) = some (ds, rest) := by
  by_cases hne : ds = []
  · rw [if_pos hne, hne, List.nil_append, takeFraction?]
    rintro _ rfl
    exact (hr '.' rfl).2 rfl
  · rw [if_neg hne, List.cons_append, takeFraction?]
    exact takeDigits?_append rest hd hne fun c hc => (hr c hc).1

theorem takeExponent?_append (exponent : Option Int) {rest : List Char} (hr : Stops rest) :
    takeExponent? (exponent.elim [] Binary64.exponentChars ++ rest) = some (exponent, rest) := by
  cases exponent with
  | none =>
    cases rest with
    | nil => rfl
    | cons c rest =>
      obtain ⟨-, -, he, hE⟩ := hr c rfl
      rw [Option.elim_none, List.nil_append, takeExponent?]
      all_goals simp [he, hE]
  | some e =>
    have hdigits : takeDigits? (Nat.toDigits 10 e.natAbs ++ rest) =
        some (Nat.toDigits 10 e.natAbs, rest) :=
      takeDigits?_append rest (fun c hc => Text.isDigit_of_mem_toDigits hc) Nat.toDigits_ne_nil
        fun c hc => (hr c hc).1
    rw [Option.elim_some, Binary64.exponentChars, Binary64.digitChars]
    by_cases hneg : e < 0
    · simp only [if_pos hneg, List.cons_append, List.nil_append, takeExponent?, hdigits,
        Option.map_some, appendDigits_eq, Nat.ofDigitChars_ten_toDigits, if_true]
      rw [show -(e.natAbs : Int) = e by omega]
    · simp only [if_neg hneg, List.cons_append, List.nil_append, takeExponent?, hdigits,
        Option.map_some, appendDigits_eq, Nat.ofDigitChars_ten_toDigits, Bool.false_eq_true,
        if_false]
      rw [show (e.natAbs : Int) = e by omega]

/-- What follows the digits before the point is no digit. -/
theorem isDigit_head? {n : Numeral} {rest : List Char} (hr : Stops rest) {c : Char}
    (hc : (n.exponent.elim [] Binary64.exponentChars ++ rest).head? = some c) :
    c.isDigit = false ∧ c ≠ '.' := by
  cases he : n.exponent with
  | none =>
    rw [he] at hc
    exact ⟨(hr c hc).1, (hr c hc).2.1⟩
  | some e =>
    have hc' : c = 'e' := by
      rw [he, Option.elim_some, Binary64.exponentChars] at hc
      split at hc <;> exact (Option.some.inj hc).symm
    subst hc'
    decide

/-- A number is taken as it is written. -/
theorem Proper.take? {n : Numeral} (hn : n.Proper) {rest : List Char} (hr : Stops rest) :
    Numeral.take? (n.chars ++ rest) = some (n, rest) := by
  have hexp := takeExponent?_append n.exponent hr
  have hfraction := takeFraction?_append
    (n.exponent.elim [] Binary64.exponentChars ++ rest) hn.isDigit_fraction
    fun c hc => n.isDigit_head? hr hc
  have hwhole := takeWhole?_append
    ((if n.fraction = [] then [] else '.' :: n.fraction) ++
      (n.exponent.elim [] Binary64.exponentChars ++ rest))
    hn.isDigit_whole hn.ne_nil hn.leading fun c hc => by
      by_cases hf : n.fraction = []
      · rw [if_pos hf] at hc
        exact (n.isDigit_head? hr hc).1
      · rw [if_neg hf] at hc
        obtain rfl : '.' = c := Option.some.inj hc
        decide
  have hchars : n.chars ++ rest = (if n.negative then ['-'] else []) ++ (n.whole ++
      ((if n.fraction = [] then [] else '.' :: n.fraction) ++
        (n.exponent.elim [] Binary64.exponentChars ++ rest))) := by
    simp only [chars, List.append_assoc]
  rw [hchars]
  obtain ⟨negative, whole, fraction, exponent⟩ := n
  cases negative with
  | true =>
    simp only [if_true, List.singleton_append, Numeral.take?, hwhole, hfraction, hexp,
      Option.bind_eq_bind, Option.bind_some]
  | false =>
    rw [if_neg Bool.false_ne_true, List.nil_append, Numeral.take?]
    · simp only [hwhole, hfraction, hexp, Option.bind_eq_bind, Option.bind_some]
    · intro tail htail
      cases whole with
      | nil => exact hn.ne_nil rfl
      | cons c cs =>
        obtain rfl : c = '-' := (List.cons.inj htail).1
        exact absurd (hn.isDigit_whole '-' List.mem_cons_self) (by decide)

end Numeral

end EventPipeline.Json
