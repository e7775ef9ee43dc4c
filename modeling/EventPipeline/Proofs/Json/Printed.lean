import EventPipeline.Proofs.Json.Document

/-!
Texts of trees have no control characters, and so no line ends: in strings those are written with
an escape.
-/

namespace EventPipeline.Json

/-- The character is no control character below the space. -/
def Printed (c : Char) : Prop := 0x20 ≤ c.toNat

instance (c : Char) : Decidable (Printed c) := inferInstanceAs (Decidable (0x20 ≤ c.toNat))

theorem printed_of_all {cs : List Char} (h : cs.all (fun c => decide (Printed c)) = true) :
    ∀ c ∈ cs, Printed c :=
  fun c hc => of_decide_eq_true (List.all_eq_true.mp h c hc)

theorem printed_of_isDigit {c : Char} (h : c.isDigit = true) : Printed c := by
  simp only [Char.isDigit, Bool.and_eq_true, decide_eq_true_eq] at h
  exact Nat.le_trans (by decide) (show 48 ≤ c.toNat from h.1)

theorem printed_hexChar (n : Nat) : Printed (hexChar n) := by
  have hall : ∀ m < 16, Printed (Nat.digitChar m) := by decide
  exact hall _ (Nat.mod_lt _ (by decide))

theorem printed_escaped (c : Char) : ∀ d ∈ escaped c, Printed d := by
  unfold escaped
  repeat' split
  -- the escapes of one letter
  any_goals exact printed_of_all rfl
  · have hstart : ∀ d ∈ ['\\', 'u', '0', '0'], Printed d := printed_of_all rfl
    refine List.forall_mem_append.mpr ⟨hstart, fun d hd => ?_⟩
    simp only [List.mem_cons, List.not_mem_nil, or_false] at hd
    rcases hd with rfl | rfl <;> exact printed_hexChar _
  · next hctl => exact fun d hd => List.mem_singleton.mp hd ▸ Nat.le_of_not_lt hctl

theorem printed_stringChars (s : String) : ∀ c ∈ stringChars s, Printed c := by
  refine List.forall_mem_cons.mpr
    ⟨by decide, List.forall_mem_append.mpr ⟨fun c hc => ?_, printed_of_all rfl⟩⟩
  obtain ⟨d, -, hc⟩ := List.mem_flatMap.mp hc
  exact printed_escaped d c hc

theorem printed_digits (n : Nat) : ∀ c ∈ Nat.toDigits 10 n, Printed c := fun _ hc =>
  printed_of_isDigit (Text.isDigit_of_mem_toDigits hc)

theorem printed_exponentChars (e : Int) : ∀ c ∈ Binary64.exponentChars e, Printed c := by
  refine List.forall_mem_append.mpr ⟨?_, printed_digits _⟩
  split <;> exact printed_of_all rfl

theorem Numeral.Proper.printed {n : Numeral} (hn : n.Proper) : ∀ c ∈ n.chars, Printed c := by
  refine List.forall_mem_append.mpr ⟨List.forall_mem_append.mpr ⟨List.forall_mem_append.mpr
    ⟨?_, fun c hc => printed_of_isDigit (hn.isDigit_whole c hc)⟩, ?_⟩, ?_⟩
  · split <;> exact printed_of_all rfl
  · split
    · exact nofun
    · exact List.forall_mem_cons.mpr
        ⟨by decide, fun c hc => printed_of_isDigit (hn.isDigit_fraction c hc)⟩
  · cases n.exponent with
    | none => exact nofun
    | some e => exact printed_exponentChars e

theorem printed_comma (first : Bool) : ∀ c ∈ if first then [] else [','], Printed c := by
  cases first <;> exact printed_of_all rfl

mutual
theorem printed_chars {t : Tree} (ht : t.Finite) : ∀ c ∈ t.chars, Printed c := by
  cases ht with
  | null => exact printed_of_all rfl
  | bool b => cases b <;> exact printed_of_all rfl
  | number hn => exact (Number.proper_numeral hn).printed
  | text s => exact printed_stringChars s
  | array hitems => exact List.forall_mem_cons.mpr ⟨by decide, printed_itemChars hitems true⟩
  | object hmembers => exact List.forall_mem_cons.mpr ⟨by decide, printed_memberChars hmembers true⟩

theorem printed_itemChars {items : List Tree} (ht : ∀ t ∈ items, t.Finite) (first : Bool) :
    ∀ c ∈ Tree.itemChars first items, Printed c := by
  cases items with
  | nil => exact List.forall_mem_cons.mpr ⟨by decide, nofun⟩
  | cons t ts =>
    exact List.forall_mem_append.mpr ⟨List.forall_mem_append.mpr
      ⟨printed_comma first, printed_chars (ht t List.mem_cons_self)⟩,
      printed_itemChars (fun s hs => ht s (List.mem_cons_of_mem _ hs)) false⟩

theorem printed_memberChars {members : List (String × Tree)} (ht : ∀ m ∈ members, m.2.Finite)
    (first : Bool) : ∀ c ∈ Tree.memberChars first members, Printed c := by
  cases members with
  | nil => exact List.forall_mem_cons.mpr ⟨by decide, nofun⟩
  | cons m ms =>
    obtain ⟨name, t⟩ := m
    exact List.forall_mem_append.mpr ⟨List.forall_mem_append.mpr ⟨List.forall_mem_append.mpr
      ⟨printed_comma first, printed_stringChars name⟩,
      List.forall_mem_cons.mpr ⟨by decide, printed_chars (t := t) (ht _ List.mem_cons_self)⟩⟩,
      printed_memberChars (fun s hs => ht s (List.mem_cons_of_mem _ hs)) false⟩
end

/-- A text has no line ends. -/
theorem not_mem_text {t : Tree} (ht : t.Finite) {c : Char} (hc : ¬ Printed c) :
    c ∉ (text t).toList := by
  rw [toList_text ht]
  exact fun h => hc (printed_chars ht c h)

end EventPipeline.Json
