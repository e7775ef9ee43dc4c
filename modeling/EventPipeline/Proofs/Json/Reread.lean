import EventPipeline.Proofs.Binary64.Arithmetic
import EventPipeline.Proofs.Json.Number

/-!
What is read of numbers and trees that were written. Every finite double is read as some finite
double (`Binary64.double?_numeral`), which need not be the one that was written. Integers are read
as they are, and so are doubles with few digits next to the point (`Tree.reread_of_isShort`).
-/

namespace EventPipeline

open Json

namespace Json.Numeral

theorem isFinite_of_double? {n : Numeral} {x : Binary64} (h : n.double? = some x) :
    x.isFinite = true := by
  obtain ⟨y, hy, rfl⟩ := Option.map_eq_some_iff.mp h
  have hdigits := Binary64.isFinite_ofRatio_one n.digits_decimal_lt
  exact Binary64.isFinite_withSign (Binary64.isFinite_of_timesTen? hdigits hy) n.negative

theorem isFinite_of_number? {n : Numeral} {m : Number} (h : n.number? = some m) : m.IsFinite := by
  rw [number?] at h
  split at h
  · exact Option.some.inj h ▸ trivial
  · obtain ⟨x, hx, rfl⟩ := Option.map_eq_some_iff.mp h
    exact isFinite_of_double? hx

end Json.Numeral

namespace Binary64

variable {x : Binary64}

/-- What is read of a finite double that was written. -/
def reread (x : Binary64) : Binary64 := x.numeral.double?.getD x

theorem double?_numeral_of_isZero (h : x.isZero = true) : x.numeral.double? = some x := by
  have hzero : (ofRatio 0 1).timesTen? (-1) = some (zero false) := by decide +kernel
  rw [numeral_of_isZero h]
  change ((ofRatio 0 1).timesTen? (-1)).map _ = _
  rw [hzero]
  exact congrArg some (zero_eq h)

/-- No finite double is written as too large a number. -/
theorem isSome_double?_numeral (hx : x.isFinite = true) : x.numeral.double?.isSome = true := by
  by_cases hzero : x.isZero = true
  · rw [double?_numeral_of_isZero hzero]
    rfl
  rcases Nat.lt_or_ge x.magnitude largest.magnitude with hlt | hge
  · rw [Numeral.double?, Option.isSome_map]
    rcases lt_or_ge x.numeral.decimal.exponent 0 with hneg | hnonneg
    · exact isSome_timesTen?_of_neg hneg _
    · obtain ⟨hv, hpos, hdigits⟩ := holds_decimal hx hzero
      obtain ⟨k, hk⟩ := Int.eq_ofNat_of_zero_le hnonneg
      rw [hk, zpow_natCast] at hv
      rw [hk]
      exact isSome_timesTen?_of_le hpos hdigits.le (by exact_mod_cast hv.le_halfway hlt)
  · -- what the largest double holds may be more than half-way, so its own text is computed
    have hlargest : x.magnitude = largest.magnitude :=
      Nat.le_antisymm (Nat.le_of_lt_succ (isFinite_iff.mp hx)) hge
    have hall : ∀ negative : Bool,
        (ofMagnitude negative largest.magnitude).numeral.double?.isSome = true := by decide +kernel
    rw [← x.ofMagnitude_magnitude, hlargest]
    exact hall _

theorem double?_numeral (hx : x.isFinite = true) : x.numeral.double? = some x.reread := by
  rw [reread, ← Option.some_get (isSome_double?_numeral hx), Option.getD_some]

/-- What is written for the double nearest to `3 * 10 ^ 23` is read as its neighbour. -/
example : reread ⟨0x44CFC3842BD1F072⟩ = ⟨0x44CFC3842BD1F071⟩ := by decide +kernel

/-- Whether a double has few digits, and its last one is next to the point. -/
def isShort (x : Binary64) : Bool :=
  x.isFinite && x.numeral.decimal.digits < 2 * hiddenBit && x.numeral.decimal.exponent.natAbs ≤ 22

theorem reread_of_isShort (h : x.isShort = true) : x.reread = x := by
  simp only [isShort, Bool.and_eq_true, decide_eq_true_eq] at h
  obtain ⟨⟨hx, hdigits⟩, hplace⟩ := h
  by_cases hzero : x.isZero = true
  · rw [reread, double?_numeral_of_isZero hzero, Option.getD_some]
  · obtain ⟨hv, -⟩ := holds_decimal hx hzero
    have hsign : (ofMagnitude false x.magnitude).withSign x.isNegative = x := by
      have hlt : x.magnitude < signBit := (isFinite_iff.mp hx).trans (by decide)
      rw [withSign, magnitude_ofMagnitude hlt, ofMagnitude_magnitude]
    rw [reread, Numeral.double?, negative_numeral,
      timesTen?_of_holds hx (significand_pos hzero) hdigits hplace hv, Option.map_some, hsign,
      Option.getD_some]

end Binary64

namespace Number

/-- What is read of a number that was written. -/
def reread : Number → Number
  | .integer n => .integer n
  | .double x => .double x.reread

/-- A number that can be written can be read. -/
theorem number?_numeral {n : Number} (hn : n.IsFinite) : n.numeral.number? = some n.reread := by
  cases n with
  | integer n => rw [Numeral.number?, integer?_numeral n]; rfl
  | double x =>
    rw [numeral, Numeral.number?, Binary64.integer?_numeral, Binary64.double?_numeral hn]
    rfl

/-- Whether a number is an integer, or a short double. -/
def isShort : Number → Bool
  | .integer _ => true
  | .double x => x.isShort

theorem reread_of_isShort {n : Number} (h : n.isShort = true) : n.reread = n := by
  cases n with
  | integer n => rfl
  | double x => exact congrArg _ (Binary64.reread_of_isShort h)

end Number

namespace Tree

mutual
/-- What is read of a tree that was written. -/
def reread : Tree → Tree
  | .number n => .number n.reread
  | .array items => .array (rereadItems items)
  | .object members => .object (rereadMembers members)
  | t => t

def rereadItems : List Tree → List Tree
  | [] => []
  | t :: ts => t.reread :: rereadItems ts

def rereadMembers : List (String × Tree) → List (String × Tree)
  | [] => []
  | (name, t) :: ms => (name, t.reread) :: rereadMembers ms
end

mutual
/-- Whether all numbers in a tree are short, as integers are. -/
def isShort : Tree → Bool
  | .number n => n.isShort
  | .array items => itemsShort items
  | .object members => membersShort members
  | _ => true

def itemsShort : List Tree → Bool
  | [] => true
  | t :: ts => t.isShort && itemsShort ts

def membersShort : List (String × Tree) → Bool
  | [] => true
  | (_, t) :: ms => t.isShort && membersShort ms
end

mutual
theorem reread_of_isShort {t : Tree} (h : t.isShort = true) : t.reread = t := by
  cases t with
  | number n => exact congrArg _ (Number.reread_of_isShort h)
  | array items => exact congrArg _ (rereadItems_of_itemsShort h)
  | object members => exact congrArg _ (rereadMembers_of_membersShort h)
  | _ => rfl

theorem rereadItems_of_itemsShort {items : List Tree} (h : itemsShort items = true) :
    rereadItems items = items := by
  cases items with
  | nil => rfl
  | cons t ts =>
    obtain ⟨ht, hts⟩ := Bool.and_eq_true_iff.mp h
    rw [rereadItems, reread_of_isShort ht, rereadItems_of_itemsShort hts]

theorem rereadMembers_of_membersShort {members : List (String × Tree)}
    (h : membersShort members = true) : rereadMembers members = members := by
  cases members with
  | nil => rfl
  | cons m ms =>
    obtain ⟨name, t⟩ := m
    obtain ⟨ht, hms⟩ := Bool.and_eq_true_iff.mp h
    rw [rereadMembers, reread_of_isShort ht, rereadMembers_of_membersShort hms]
end

mutual
/-- What is read again is as deep as what was written. -/
theorem depth_reread (t : Tree) : t.reread.depth = t.depth := by
  cases t with
  | array items => rw [reread, depth, depth, itemsDepth_rereadItems items]
  | object members => rw [reread, depth, depth, membersDepth_rereadMembers members]
  | _ => rfl

theorem itemsDepth_rereadItems (items : List Tree) :
    itemsDepth (rereadItems items) = itemsDepth items := by
  cases items with
  | nil => rfl
  | cons t ts => rw [rereadItems, itemsDepth, itemsDepth, depth_reread t, itemsDepth_rereadItems ts]

theorem membersDepth_rereadMembers (members : List (String × Tree)) :
    membersDepth (rereadMembers members) = membersDepth members := by
  cases members with
  | nil => rfl
  | cons m ms =>
    obtain ⟨name, t⟩ := m
    rw [rereadMembers, membersDepth, membersDepth, depth_reread t, membersDepth_rereadMembers ms]
end

/-- Members keep their names. -/
theorem rereadMembers_eq_map (members : List (String × Tree)) :
    rereadMembers members = members.map fun m => (m.1, m.2.reread) := by
  induction members with
  | nil => rfl
  | cons m ms ih => rw [rereadMembers, ih, List.map_cons]

theorem sorted_rereadMembers {members : Keyed Tree} (h : Keyed.Sorted members) :
    Keyed.Sorted (rereadMembers members) := by
  rw [rereadMembers_eq_map, Keyed.Sorted, List.pairwise_map]
  exact h

theorem isContainer_reread (t : Tree) : t.reread.isContainer = t.isContainer := by
  cases t <;> rfl

end Tree

end EventPipeline
