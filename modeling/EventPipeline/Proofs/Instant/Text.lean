import EventPipeline.Instant.Text
import EventPipeline.Proofs.Text.Digits

/-!
Instants that are read from texts are times of a day of the calendar (`proper_of_ofText?`), and
those are read back from the texts that are written for them (`ofText?_text`).
-/

namespace EventPipeline

namespace Text

theorem trimStart_cons {c : Char} (hc : isBlank c = false) (cs : List Char) :
    trimStart (c :: cs) = c :: cs :=
  List.dropWhile_cons_of_neg (by simp [hc])

theorem isBlank_of_isDigit {c : Char} (hc : c.isDigit = true) : isBlank c = false := by
  simp only [Char.isDigit, Bool.and_eq_true, decide_eq_true_eq] at hc
  have h₁ : 48 ≤ c.toNat := hc.1
  have h₂ : c.toNat ≤ 57 := hc.2
  simp only [isBlank, Bool.or_eq_false_iff, Bool.and_eq_false_iff, decide_eq_false_iff_not,
    beq_eq_false_iff_ne]
  omega

end Text

namespace Instant

/-- A time of a day of the calendar. -/
structure Proper (t : Instant) : Prop where
  isValid : t.date.isValid = true
  minute_lt : t.minute < 1440
  second_le : t.second ≤ 60
  nanosecond_lt : t.nanosecond < 1000000000

theorem isDigit_eq : isDigit = Char.isDigit := rfl

section Digits

variable {width n : Nat} {rest : List Char}

theorem isDigit_of_mem_padded {c : Char} (h : c ∈ padded width n) : c.isDigit = true := by
  rcases List.mem_append.mp h with h | h
  · rw [List.eq_of_mem_replicate h]
    rfl
  · exact Text.isDigit_of_mem_toDigits h

theorem length_padded (h : (Nat.toDigits 10 n).length ≤ width) : (padded width n).length = width := by
  rw [padded, List.length_append, List.length_replicate]
  omega

theorem padded_ne_nil : padded width n ≠ [] := by
  intro h
  exact Nat.toDigits_ne_nil (List.append_eq_nil_iff.mp h).2

theorem digitsValue_padded : digitsValue (padded width n) = n := by
  change Nat.ofDigitChars 10 _ 0 = n
  rw [padded, Nat.ofDigitChars_append, Nat.ofDigitChars_replicate_zero, Nat.mul_zero,
    Nat.ofDigitChars_ten_toDigits]

/-- Digits are taken off a text up to the width, or to the first character that is no digit. -/
theorem takeNumber?_append {ds : List Char} (hd : ∀ c ∈ ds, c.isDigit = true) (hne : ds ≠ [])
    (hle : ds.length ≤ width)
    (hstop : ds.length = width ∨ ∀ c, rest.head? = some c → c.isDigit = false) :
    takeNumber? width (ds ++ rest) = some (digitsValue ds, rest) := by
  have hrest : (rest.take (width - ds.length)).takeWhile isDigit = [] := by
    rcases hstop with hstop | hstop
    · rw [hstop, Nat.sub_self]
      rfl
    · cases rest with
      | nil => rw [List.take_nil]; rfl
      | cons c cs =>
        cases width - ds.length with
        | zero => rfl
        | succ k => exact List.takeWhile_cons_of_neg (by simp [isDigit_eq, hstop c rfl])
  have hdigits : ((ds ++ rest).take width).takeWhile isDigit = ds := by
    rw [List.take_append, List.take_of_length_le hle, isDigit_eq, List.takeWhile_append_of_pos hd,
      ← isDigit_eq, hrest, List.append_nil]
  rw [takeNumber?, hdigits, List.drop_left, List.isEmpty_eq_false_iff.mpr hne]
  rfl

/-- A number is taken as it was written, if it does not have more digits than it may. -/
theorem takeNumber?_padded (rest : List Char) (h : (Nat.toDigits 10 n).length ≤ width) :
    takeNumber? width (padded width n ++ rest) = some (n, rest) := by
  rw [takeNumber?_append (fun _ => isDigit_of_mem_padded) padded_ne_nil
    (Nat.le_of_eq (length_padded h)) (.inl (length_padded h)), digitsValue_padded]

theorem trimStart_padded : Text.trimStart (padded width n ++ rest) = padded width n ++ rest := by
  cases hp : padded width n with
  | nil => exact absurd hp padded_ne_nil
  | cons c cs =>
    have hc : c ∈ padded width n := hp ▸ List.mem_cons_self
    exact Text.trimStart_cons (Text.isBlank_of_isDigit (isDigit_of_mem_padded hc)) _

/-- A padded number starts with a digit. -/
theorem padded_append_ne {c : Char} (hc : c.isDigit = false) {cs : List Char} :
    padded width n ++ rest ≠ c :: cs := by
  cases hp : padded width n with
  | nil => exact absurd hp padded_ne_nil
  | cons d ds =>
    rintro ⟨⟩
    have hd : c ∈ padded width n := hp ▸ List.mem_cons_self
    exact absurd (isDigit_of_mem_padded hd) (by simp [hc])

theorem takePart?_padded (rest : List Char) (h : (Nat.toDigits 10 n).length ≤ 2) {c : Char}
    (hc : Text.isBlank c = false) :
    takePart? (padded 2 n ++ c :: rest) = some (n, c :: rest) := by
  rw [takePart?, trimStart_padded, takeNumber?_padded _ h]
  exact congrArg (fun cs => some (n, cs)) (Text.trimStart_cons hc rest)

theorem digitsValue_lt {ds : List Char} (hd : ∀ c ∈ ds, c.isDigit = true) :
    digitsValue ds < Nat.pow 10 ds.length := by
  suffices h : ∀ k, Nat.ofDigitChars 10 ds k < (k + 1) * Nat.pow 10 ds.length from
    Nat.lt_of_lt_of_eq (h 0) (Nat.one_mul _)
  induction ds with
  | nil =>
    intro k
    rw [Nat.ofDigitChars_nil]
    exact Nat.lt_of_lt_of_eq (Nat.lt_succ_self k) (Nat.mul_one _).symm
  | cons c cs ih =>
    intro k
    have hc := hd c List.mem_cons_self
    simp only [Char.isDigit, Bool.and_eq_true, decide_eq_true_eq] at hc
    have hle : c.toNat ≤ 57 := hc.2
    have hcs := ih (fun d h => hd d (List.mem_cons_of_mem _ h)) (10 * k + (c.toNat - '0'.toNat))
    have hzero : '0'.toNat = 48 := rfl
    rw [Nat.ofDigitChars_cons, List.length_cons]
    refine Nat.lt_of_lt_of_le hcs ?_
    calc (10 * k + (c.toNat - '0'.toNat) + 1) * Nat.pow 10 cs.length
        ≤ ((k + 1) * 10) * Nat.pow 10 cs.length := Nat.mul_le_mul_right _ (by omega)
      _ = (k + 1) * Nat.pow 10 (cs.length + 1) := by
        rw [Nat.mul_assoc, Nat.mul_comm 10]
        rfl

end Digits

theorem length_toDigits_le (width : Nat) {n : Nat} (hw : 0 < width) (hn : n < Nat.pow 10 width) :
    (Nat.toDigits 10 n).length ≤ width :=
  (Nat.length_toDigits_le_iff (by decide) hw).mpr hn

theorem takeYear?_yearChars (year : Int) (rest : List Char) :
    takeYear? (yearChars year ++ '-' :: rest) = some (year, '-' :: rest) := by
  have hdash (cs : List Char) : Text.trimStart ('-' :: cs) = '-' :: cs :=
    Text.trimStart_cons (by decide) cs
  have hplus (cs : List Char) : Text.trimStart ('+' :: cs) = '+' :: cs :=
    Text.trimStart_cons (by decide) cs
  have hsigned (n : Nat) : takeNumber? (padded 4 n ++ '-' :: rest).length
      (padded 4 n ++ '-' :: rest) = some (n, '-' :: rest) := by
    rw [takeNumber?_append (fun _ => isDigit_of_mem_padded) padded_ne_nil
      (by simp only [List.length_append]; omega) (.inr (by rintro _ ⟨⟩; rfl)), digitsValue_padded]
  rw [yearChars]
  split
  · next h =>
    have hfour : takeNumber? 4 (padded 4 year.toNat ++ '-' :: rest) =
        some (year.toNat, '-' :: rest) :=
      takeNumber?_padded _ (length_toDigits_le 4 (by decide) (by
        have : Nat.pow 10 4 = 10000 := rfl
        omega))
    have hyear : ((year.toNat : Nat) : Int) = year := Int.toNat_of_nonneg h.1
    simp only [takeYear?, trimStart_padded]
    split
    · next hp => exact absurd hp (padded_append_ne (by decide))
    · next hp => exact absurd hp (padded_append_ne (by decide))
    · simp only [hfour, Option.map_some, hdash, hyear]
  · next h =>
    split
    · next hneg =>
      have hyear : -((year.natAbs : Nat) : Int) = year := by omega
      simp only [takeYear?, List.cons_append, hdash, hsigned, Option.map_some, hyear]
    · next hneg =>
      have hyear : ((year.natAbs : Nat) : Int) = year := by omega
      simp only [takeYear?, List.cons_append, hplus, hsigned, Option.map_some, hdash, hyear]

theorem takeDate?_append {date : Date} (h : date.isValid = true) (rest : List Char) :
    takeDate? (yearChars date.year ++ '-' :: (padded 2 date.month ++ '-' :: (padded 2 date.day ++
      rest))) = some (date, rest) := by
  obtain ⟨year, month, day⟩ := date
  simp only [Date.isValid, Bool.and_eq_true, decide_eq_true_eq] at h
  have hdays : Date.daysInMonth year month ≤ 31 := by
    unfold Date.daysInMonth
    repeat' split
    all_goals omega
  have hhundred : Nat.pow 10 2 = 100 := rfl
  have hmonth := takePart?_padded (n := month) (padded 2 day ++ rest)
    (length_toDigits_le 2 (by decide) (by omega)) (show Text.isBlank '-' = false by decide)
  have hday := takeNumber?_padded (n := day) rest
    (length_toDigits_le 2 (by decide) (by omega))
  simp only [takeDate?, takeYear?_yearChars, takeChar?, hmonth, trimStart_padded, hday, if_true,
    bind, Option.bind]

theorem takeFraction?_padded {width n : Nat} (hw : 0 < width) (hle : width ≤ 9)
    (hn : n < Nat.pow 10 width) :
    takeFraction? ('.' :: (padded width n ++ ['Z'])) = some (n * Nat.pow 10 (9 - width), ['Z']) := by
  have hlen := length_padded (length_toDigits_le width hw hn)
  have hd : ∀ c ∈ padded width n, isDigit c = true := fun _ => isDigit_of_mem_padded
  have htake : (padded width n ++ ['Z']).takeWhile isDigit = padded width n := by
    rw [List.takeWhile_append_of_pos hd]
    exact List.append_nil _
  have hdrop : (padded width n ++ ['Z']).dropWhile isDigit = ['Z'] := by
    rw [List.dropWhile_append_of_pos hd]
    rfl
  rw [takeFraction?, htake, hdrop]
  split
  · next hp => exact absurd hp padded_ne_nil
  · simp only [List.take_of_length_le (Nat.le_trans (Nat.le_of_eq hlen) hle), digitsValue_padded,
      hlen]

theorem takeFraction?_fractionChars {nanosecond : Nat} (h : nanosecond < 1000000000) :
    takeFraction? (fractionChars nanosecond ++ ['Z']) = some (nanosecond, ['Z']) := by
  have hpow : Nat.pow 10 3 = 1000 ∧ Nat.pow 10 6 = 1000000 ∧ Nat.pow 10 9 = 1000000000 :=
    ⟨rfl, rfl, rfl⟩
  rw [fractionChars]
  split
  · next hz => rw [hz]; rfl
  · split
    · next hm =>
      rw [List.cons_append, takeFraction?_padded (by decide) (by decide) (by omega)]
      exact congrArg (fun n => some (n, ['Z'])) (Nat.div_mul_cancel (Nat.dvd_of_mod_eq_zero hm))
    · split
      · next hm =>
        rw [List.cons_append, takeFraction?_padded (by decide) (by decide) (by omega)]
        exact congrArg (fun n => some (n, ['Z'])) (Nat.div_mul_cancel (Nat.dvd_of_mod_eq_zero hm))
      · rw [List.cons_append, takeFraction?_padded (by decide) (by decide) (by omega)]
        exact congrArg (fun n => some (n, ['Z'])) (Nat.mul_one _)

theorem utc?_zero {t : Instant} (h : t.Proper) : t.utc? 0 = some t := by
  have hyear : t.date.hasYear = true := by
    have := h.isValid
    simp only [Date.isValid, Bool.and_eq_true] at this
    exact this.1.1.1.1
  have hlt := h.minute_lt
  have hbefore : ¬ (t.minute : Int) - 0 < 0 := by omega
  have hafter : ¬ dayMinutes ≤ (t.minute : Int) - 0 := by
    unfold dayMinutes
    omega
  have hminute : (((t.minute : Int) - 0) % dayMinutes).toNat = t.minute := by
    unfold dayMinutes
    omega
  simp only [utc?, hbefore, hafter, if_false, hminute, hyear, if_true]

/-- A time of a day of the calendar is read back from its text. -/
theorem ofText?_text {t : Instant} (h : t.Proper) : ofText? t.text = some t := by
  have hminute := h.minute_lt
  have hsecond := h.second_le
  have hhundred : Nat.pow 10 2 = 100 := rfl
  have hdate := takeDate?_append h.isValid
    ('T' :: (padded 2 (t.minute / 60) ++ ':' :: (padded 2 (t.minute % 60) ++
      ':' :: (padded 2 t.second ++ (fractionChars t.nanosecond ++ ['Z'])))))
  have hcolon : Text.isBlank ':' = false := by decide
  have hhours (rest : List Char) := takePart?_padded (n := t.minute / 60) rest
    (length_toDigits_le 2 (by decide) (by omega)) hcolon
  have hminutes (rest : List Char) := takePart?_padded (n := t.minute % 60) rest
    (length_toDigits_le 2 (by decide) (by omega)) hcolon
  have hseconds (rest : List Char) := takeNumber?_padded (n := t.second) rest
    (length_toDigits_le 2 (by decide) (by omega))
  have htime : isTime (t.minute / 60) (t.minute % 60) t.second = true := by
    simp only [isTime, Bool.and_eq_true, decide_eq_true_eq]
    omega
  have hzone : Text.trimStart ['Z'] = ['Z'] := by decide
  have hwhole : t.minute / 60 * 60 + t.minute % 60 = t.minute := by omega
  rw [ofText?, text, String.toList_ofList, read?]
  simp only [List.append_assoc, List.cons_append, hdate, hhours, hminutes, trimStart_padded,
    hseconds, takeFraction?_fractionChars h.nanosecond_lt, takeChar?, hzone, takeOffset?, if_true,
    bind, Option.bind, h.isValid, htime, hwhole, Text.trimStart_nil, List.isEmpty_nil, Bool.and_self]
  exact utc?_zero h

end Instant

namespace Date

theorem one_le_daysInMonth (year : Int) (month : Nat) : 1 ≤ daysInMonth year month := by
  unfold daysInMonth
  repeat' split
  all_goals decide

theorem isValid_iff {d : Date} :
    d.isValid = true ↔ d.hasYear = true ∧ 1 ≤ d.month ∧ d.month ≤ 12 ∧ 1 ≤ d.day ∧
      d.day ≤ daysInMonth d.year d.month := by
  simp only [isValid, Bool.and_eq_true, decide_eq_true_eq, and_assoc]

theorem isValid_previous {d : Date} (h : d.isValid = true) (hy : d.previous.hasYear = true) :
    d.previous.isValid = true := by
  obtain ⟨-, hm₁, hm₂, hd₁, hd₂⟩ := isValid_iff.mp h
  refine isValid_iff.mpr ⟨hy, ?_⟩
  unfold previous
  split
  · exact ⟨hm₁, hm₂, by dsimp only; omega, by dsimp only; omega⟩
  · split
    · exact ⟨by dsimp only; omega, by dsimp only; omega, one_le_daysInMonth _ _, Nat.le_refl _⟩
    · exact ⟨by dsimp only; omega, Nat.le_refl 12, by dsimp only; omega, Nat.le_refl 31⟩

theorem isValid_next {d : Date} (h : d.isValid = true) (hy : d.next.hasYear = true) :
    d.next.isValid = true := by
  obtain ⟨-, hm₁, hm₂, hd₁, hd₂⟩ := isValid_iff.mp h
  refine isValid_iff.mpr ⟨hy, ?_⟩
  unfold next
  split
  · next hlt => exact ⟨hm₁, hm₂, Nat.succ_pos _, hlt⟩
  · split
    · exact ⟨Nat.succ_pos _, by dsimp only; omega, Nat.le_refl 1, one_le_daysInMonth _ _⟩
    · exact ⟨Nat.le_refl 1, by dsimp only; omega, Nat.le_refl 1, one_le_daysInMonth _ _⟩

end Date

namespace Instant

theorem proper_of_utc? {there t : Instant} {offset : Int} (h : there.utc? offset = some t)
    (hvalid : there.date.isValid = true) (hsecond : there.second ≤ 60)
    (hnano : there.nanosecond < 1000000000) : t.Proper := by
  simp only [utc?, Option.ite_none_right_eq_some, Option.some.injEq] at h
  obtain ⟨hy, rfl⟩ := h
  refine ⟨?_, ?_, hsecond, hnano⟩
  · dsimp only
    split at hy
    · next hneg =>
      rw [if_pos hneg]
      exact Date.isValid_previous hvalid hy
    · next hneg =>
      rw [if_neg hneg]
      split at hy
      · next hafter =>
        rw [if_pos hafter]
        exact Date.isValid_next hvalid hy
      · next hafter =>
        rw [if_neg hafter]
        exact hvalid
  · unfold dayMinutes
    dsimp only
    omega

theorem lt_of_takeFraction? {cs rest : List Char} {n : Nat} (h : takeFraction? cs = some (n, rest)) :
    n < 1000000000 := by
  unfold takeFraction? at h
  split at h
  · next cs =>
    split at h
    · cases h
    · next hdigits =>
      cases h
      have hd : ∀ c ∈ (cs.takeWhile isDigit).take 9, c.isDigit = true := fun c hc =>
        List.all_eq_true.mp List.all_takeWhile c (List.mem_of_mem_take hc)
      have hlt := digitsValue_lt hd
      have hle : ((cs.takeWhile isDigit).take 9).length ≤ 9 := List.length_take_le _ _
      calc digitsValue ((cs.takeWhile isDigit).take 9) *
            Nat.pow 10 (9 - ((cs.takeWhile isDigit).take 9).length)
          < Nat.pow 10 ((cs.takeWhile isDigit).take 9).length *
            Nat.pow 10 (9 - ((cs.takeWhile isDigit).take 9).length) :=
            Nat.mul_lt_mul_of_pos_right hlt (Nat.pow_pos (by decide))
        _ = Nat.pow 10 (((cs.takeWhile isDigit).take 9).length +
            (9 - ((cs.takeWhile isDigit).take 9).length)) := (Nat.pow_add 10 _ _).symm
        _ = Nat.pow 10 9 := by rw [Nat.add_sub_of_le hle]
  · cases h
    decide

theorem proper_of_ofText? {s : String} {t : Instant} (h : ofText? s = some t) : t.Proper := by
  simp only [ofText?, read?, Option.bind_eq_bind, Option.bind_eq_some_iff] at h
  obtain ⟨⟨date, cs⟩, -, h⟩ := h
  -- `T`, `t` and the space between date and time are read alike
  split at h
  all_goals
    simp only [Option.bind_some, Option.bind_none, Option.bind_eq_some_iff,
      Option.ite_none_right_eq_some, Bool.and_eq_true, reduceCtorEq] at h
  all_goals
    obtain ⟨⟨hour, _⟩, -, _, -, ⟨minute, _⟩, -, _, -, ⟨second, _⟩, -, ⟨nanosecond, _⟩, hnano,
      ⟨offset, _⟩, -, ⟨⟨hvalid, htime⟩, -⟩, hutc⟩ := h
    simp only [isTime, Bool.and_eq_true, decide_eq_true_eq] at htime
    exact proper_of_utc? hutc hvalid htime.2 (lt_of_takeFraction? hnano)

end Instant

end EventPipeline
