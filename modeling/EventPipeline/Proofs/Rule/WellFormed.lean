import EventPipeline.Proofs.Json.Typed
import EventPipeline.Proofs.Text.Unbordered
import EventPipeline.Rule.Basic
import Mathlib.Data.List.Forall2

/-!
What the configuration of a rule is checked for. Each operation asks something of its own of a path
entry (`PathSpec.WellFormed`). An entry that is well formed gives one rule, and any other is
refused for one reason, which is the configuration's fault (`Rule.configure_ruling`).
-/

namespace EventPipeline

open EventPipeline.Path (Step)

/-- A check that comes to a result when it accepts, and otherwise refuses for a reason. -/
structure Ruling {ε α : Type} (x : Except ε α) (Accepted : Prop) (result : α)
    (Refused : ε → Prop) : Prop where
  accepted : Accepted → x = .ok result
  refused : ∀ {e}, Refused e → x = .error e
  total : Accepted ∨ ∃ e, Refused e

namespace Ruling

variable {ε α β : Type} {x : Except ε α} {A : Prop} {a b : α} {R : ε → Prop} {e : ε}

theorem not_accepted (v : Ruling x A a R) (he : R e) : ¬ A := by
  intro ha
  have := (v.accepted ha).symm.trans (v.refused he)
  cases this

theorem eq_ok_iff (v : Ruling x A a R) : x = .ok b ↔ A ∧ b = a := by
  constructor
  · intro h
    rcases v.total with ha | ⟨e, he⟩
    · exact ⟨ha, Except.ok.inj (h.symm.trans (v.accepted ha))⟩
    · have := h.symm.trans (v.refused he)
      cases this
  · rintro ⟨ha, rfl⟩
    exact v.accepted ha

theorem eq_error_iff (v : Ruling x A a R) : x = .error e ↔ R e := by
  constructor
  · intro h
    rcases v.total with ha | ⟨e', he⟩
    · have := h.symm.trans (v.accepted ha)
      cases this
    · exact Except.error.inj (h.symm.trans (v.refused he)) ▸ he
  · exact v.refused

theorem map (v : Ruling x A a R) (f : α → β) : Ruling (f <$> x) A (f a) R where
  accepted ha := by
    rw [v.accepted ha]
    rfl
  refused he := by
    rw [v.refused he]
    rfl
  total := v.total

/-- A note on the reason changes nothing else. -/
theorem mapError {ε' : Type} (v : Ruling x A a R) (f : ε → ε') :
    Ruling (x.mapError f) A a fun e => ∃ cause, R cause ∧ e = f cause where
  accepted ha := by
    rw [v.accepted ha]
    rfl
  refused := by
    rintro _ ⟨cause, he, rfl⟩
    rw [v.refused he]
    rfl
  total := v.total.imp id fun ⟨cause, he⟩ => ⟨_, cause, he, rfl⟩

/-- Of two checks the second one counts when the first one accepts. -/
theorem bind {A' : Prop} {b : β} {R' : ε → Prop} {f : α → Except ε β} (v : Ruling x A a R)
    (w : Ruling (f a) A' b R') : Ruling (x >>= f) (A ∧ A') b fun e => R e ∨ A ∧ R' e where
  accepted := by
    rintro ⟨ha, ha'⟩
    rw [v.accepted ha]
    exact w.accepted ha'
  refused := by
    rintro e (he | ⟨ha, he⟩)
    · rw [v.refused he]
      rfl
    · rw [v.accepted ha]
      exact w.refused he
  total := by
    rcases v.total with ha | ⟨e, he⟩
    · rcases w.total with ha' | ⟨e, he⟩
      · exact .inl ⟨ha, ha'⟩
      · exact .inr ⟨e, .inr ⟨ha, he⟩⟩
    · exact .inr ⟨e, .inl he⟩

/-- Of several checks the first one that does not accept says why. -/
theorem mapM {f : α → Except ε β} {P : α → Prop} {g : α → β} {R : α → ε → Prop}
    (v : ∀ x, Ruling (f x) (P x) (g x) (R x)) (xs : List α) :
    Ruling (xs.mapM f) (∀ x ∈ xs, P x) (xs.map g) fun e =>
      ∃ before bad after, xs = before ++ bad :: after ∧ (∀ x ∈ before, P x) ∧ ¬ P bad ∧
        R bad e := by
  induction xs with
  | nil => exact ⟨fun _ => rfl, by simp, .inl nofun⟩
  | cons x xs ih =>
    have h := (v x).bind (f := fun y => (y :: ·) <$> xs.mapM f) (ih.map (g x :: ·))
    rw [List.mapM_cons]
    simp only [bind_pure_comp]
    refine ⟨fun ha => ?_, ?_, ?_⟩
    · exact h.accepted (List.forall_mem_cons.mp ha)
    · rintro e ⟨before, bad, after, hxs, hbefore, hbad, he⟩
      -- The first check decides when nothing stands before the one that refuses.
      cases before with
      | nil =>
        cases hxs
        exact h.refused (.inl he)
      | cons y before =>
        obtain ⟨rfl, htail⟩ := List.cons.inj hxs
        obtain ⟨hy, hbefore⟩ := List.forall_mem_cons.mp hbefore
        exact h.refused (.inr ⟨hy, before, bad, after, htail, hbefore, hbad, he⟩)
    · rcases h.total with ha | ⟨e, he | ⟨hx, before, bad, after, rfl, hbefore, hbad, he⟩⟩
      · exact .inl (List.forall_mem_cons.mpr ha)
      · exact .inr ⟨e, [], x, xs, rfl, nofun, (v x).not_accepted he, he⟩
      · exact .inr ⟨e, x :: before, bad, after, rfl, List.forall_mem_cons.mpr ⟨hx, hbefore⟩,
          hbad, he⟩

end Ruling

namespace Text

theorem toNat_toLower (c : Char) :
    c.toLower.toNat = if 65 ≤ c.toNat ∧ c.toNat ≤ 90 then c.toNat + 32 else c.toNat := by
  unfold Char.toLower
  split
  · next h =>
    have hc : 65 ≤ c.toNat ∧ c.toNat ≤ 90 := h
    rw [if_pos hc]
    change (c.val + 32).toNat = _
    rw [UInt32.toNat_add]
    change (c.toNat + 32) % 4294967296 = _
    omega
  · next h => exact (if_neg h).symm

theorem toNat_toUpper (c : Char) :
    c.toUpper.toNat = if 97 ≤ c.toNat ∧ c.toNat ≤ 122 then c.toNat - 32 else c.toNat := by
  unfold Char.toUpper
  split
  · next h =>
    have hc : 97 ≤ c.toNat ∧ c.toNat ≤ 122 := h
    rw [if_pos hc]
    -- Subtraction of 32 is written as the addition of what is left of a whole turn.
    change (c.val + 4294967264).toNat = _
    rw [UInt32.toNat_add]
    change (c.toNat + 4294967264) % 4294967296 = _
    omega
  · next h => exact (if_neg h).symm

theorem toLower_eq_iff {c d : Char} (hd : 97 ≤ d.toNat ∧ d.toNat ≤ 122) :
    c.toLower = d ↔ c = d ∨ c = d.toUpper := by
  rw [← Char.toNat_inj, ← Char.toNat_inj, ← Char.toNat_inj, toNat_toLower, toNat_toUpper,
    if_pos hd]
  split <;> omega

/-- The text is a word of small letters, of which any may be written as capitals. -/
def Spells (s word : String) : Prop :=
  List.Forall₂ (fun c d => c = d ∨ c = d.toUpper) s.toList word.toList

instance (s word : String) : Decidable (Spells s word) :=
  inferInstanceAs (Decidable (List.Forall₂ _ _ _))

theorem map_toLower_eq_iff {s word : List Char} (h : ∀ d ∈ word, 97 ≤ d.toNat ∧ d.toNat ≤ 122) :
    s.map Char.toLower = word ↔ List.Forall₂ (fun c d => c = d ∨ c = d.toUpper) s word := by
  induction word generalizing s with
  | nil => rw [List.map_eq_nil_iff, List.forall₂_nil_right_iff]
  | cons d word ih =>
    obtain ⟨hd, hrest⟩ := List.forall_mem_cons.mp h
    cases s with
    | nil => simp
    | cons c s =>
      rw [List.map_cons, List.cons.injEq, toLower_eq_iff hd, ih hrest,
        List.forall₂_cons]

/-- A text up to its first colon. -/
def beforeColon (s : String) : String := String.ofList (s.toList.takeWhile (· != ':'))

/-- A text behind its first colon. -/
def afterColon (s : String) : String := String.ofList (s.toList.dropWhile (· != ':')).tail

theorem split_of_count_eq_one {s : String} (h : s.toList.count ':' = 1) :
    split [':'] s.toList = [(beforeColon s).toList, (afterColon s).toList] := by
  have hmem : ':' ∈ s.toList := List.count_pos_iff.mp (h ▸ Nat.one_pos)
  obtain ⟨a, b, hs, ha⟩ := List.eq_append_cons_of_mem hmem
  have hb : ':' ∉ b := by
    rw [hs, List.count_append, List.count_cons_self, List.count_eq_zero.mpr ha] at h
    exact List.count_eq_zero.mp (by omega)
  rw [beforeColon, afterColon, String.toList_ofList, String.toList_ofList, hs,
    takeWhile_ne_append_cons ha, dropWhile_ne_append_cons ha, split_append_cons,
    split_of_find?_eq_none (find?_eq_none_of_notMem ha),
    split_of_find?_eq_none (find?_eq_none_of_notMem hb)]
  rfl

end Text

namespace Path

variable {p : Path}

/-- No index on the way is too large to be written to. -/
def Writable (p : Path) : Prop := ∀ i, Step.index i ∈ p.steps → i ≤ 65535

/-- The largest index on the way is too large to be written to. -/
def Exceeds (p : Path) (i : Nat) : Prop := p.maxIndex? = some i ∧ 65535 < i

theorem writable_iff : p.Writable ↔ p.excess? = none := excess?_eq_none_iff.symm

theorem exceeds_iff {i : Nat} : p.Exceeds i ↔ p.excess? = some i := by
  rw [excess?, Option.filter_eq_some_iff, decide_eq_true_eq]
  rfl

instance (p : Path) : Decidable p.Writable := decidable_of_iff _ writable_iff.symm

theorem writable_or_exceeds (p : Path) : p.Writable ∨ ∃ i, p.Exceeds i := by
  rw [writable_iff]
  cases h : p.excess? with
  | none => exact .inl rfl
  | some i => exact .inr ⟨i, exceeds_iff.mpr h⟩

theorem ensureWritable_of_writable (h : p.Writable) : p.ensureWritable = .ok () := by
  rw [ensureWritable, writable_iff.mp h]

theorem ensureWritable_of_exceeds {i : Nat} (h : p.Exceeds i) :
    p.ensureWritable = .error (.config (.indexTooLarge i p)) := by
  rw [ensureWritable, exceeds_iff.mp h]

end Path

namespace PathSpec

variable {spec : PathSpec} {op : Operation} {e : Error}

/-- What an operation asks of a path entry. -/
def WellFormed (spec : PathSpec) : Operation → Prop
  | .add => (Path.parse spec.key spec.separator).Writable
  | .delete => True
  | .shift => spec.key.toList.count ':' = 1 ∧
      (Path.parse (Text.afterColon spec.key) spec.separator).Writable
  | .store => spec.key ≠ ""
  | .parse => Text.Spells spec.value "json"

instance (spec : PathSpec) (op : Operation) : Decidable (spec.WellFormed op) :=
  match op with
  | .add => inferInstanceAs (Decidable (Path.Writable _))
  | .delete => .isTrue trivial
  | .shift => inferInstanceAs (Decidable (_ ∧ _))
  | .store => inferInstanceAs (Decidable (_ ≠ _))
  | .parse => inferInstanceAs (Decidable (Text.Spells _ _))

/-- Why an operation refuses a path entry. Of two faults in the key of a shift, the colons come
first. -/
inductive Refused (spec : PathSpec) : Operation → Error → Prop where
  | added {i : Nat} : (Path.parse spec.key spec.separator).Exceeds i →
      Refused spec .add (.config (.indexTooLarge i (Path.parse spec.key spec.separator)))
  | colons : spec.key.toList.count ':' ≠ 1 → Refused spec .shift (.malformedShiftKey spec.key)
  | shifted {i : Nat} : spec.key.toList.count ':' = 1 →
      (Path.parse (Text.afterColon spec.key) spec.separator).Exceeds i →
        Refused spec .shift
          (.config (.indexTooLarge i (Path.parse (Text.afterColon spec.key) spec.separator)))
  | unnamed : spec.key = "" → Refused spec .store (.config .unnamedVariable)
  | format : ¬ Text.Spells spec.value "json" → Refused spec .parse (.unsupportedFormat spec.value)

theorem wellFormed_or_refused (spec : PathSpec) (op : Operation) :
    spec.WellFormed op ∨ ∃ e, spec.Refused op e := by
  cases op with
  | add => exact (Path.writable_or_exceeds _).imp id fun ⟨_, h⟩ => ⟨_, .added h⟩
  | delete => exact .inl trivial
  | shift =>
    by_cases hcolons : spec.key.toList.count ':' = 1
    · rcases Path.writable_or_exceeds (Path.parse (Text.afterColon spec.key) spec.separator) with
        h | ⟨i, h⟩
      · exact .inl ⟨hcolons, h⟩
      · exact .inr ⟨_, .shifted hcolons h⟩
    · exact .inr ⟨_, .colons hcolons⟩
  | store =>
    by_cases h : spec.key = ""
    · exact .inr ⟨_, .unnamed h⟩
    · exact .inl h
  | parse =>
    by_cases h : Text.Spells spec.value "json"
    · exact .inl h
    · exact .inr ⟨_, .format h⟩

/-- A refusal is the configuration's fault. -/
theorem Refused.isConfiguration (h : spec.Refused op e) : e.isConfiguration = true := by
  cases h <;> rfl

end PathSpec

theorem Format.ofName_eq (name : String) : ofName name =
    if Text.Spells name "json" then .ok .json else .error (.unsupportedFormat name) := by
  have hletters : ∀ d ∈ Format.json.name.toList, 97 ≤ d.toNat ∧ d.toNat ≤ 122 := by
    -- `decide` would go over all characters.
    simp [Format.name]
  exact if_congr (Text.map_toLower_eq_iff hletters) rfl rfl

theorem Shift.ofSpec_of_colons {spec : PathSpec} (h : spec.key.toList.count ':' ≠ 1) :
    ofSpec spec = .error (.malformedShiftKey spec.key) := by
  rw [ofSpec]
  split
  · next source target hsplit =>
    have hlength := Text.length_split ':' spec.key.toList
    rw [hsplit] at hlength
    exact absurd (Nat.succ.inj hlength).symm h
  · rfl

theorem Shift.ofSpec_of_colon {spec : PathSpec} (h : spec.key.toList.count ':' = 1) :
    ofSpec spec =
      (Path.parse (Text.afterColon spec.key) spec.separator).ensureWritable.map fun _ =>
        ⟨Path.parse (Text.beforeColon spec.key) spec.separator,
          Path.parse (Text.afterColon spec.key) spec.separator, spec.value⟩ := by
  rw [ofSpec, Text.split_of_count_eq_one h]
  simp only [String.ofList_toList]
  cases (Path.parse (Text.afterColon spec.key) spec.separator).ensureWritable <;> rfl

namespace Rule

variable {op : Operation} {spec : PathSpec} {r : Rule} {e : Error}

/-- The rule that applies an operation to a well-formed path entry. -/
def ofEntry (op : Operation) (spec : PathSpec) : Rule :=
  match op with
  | .add => .add ⟨Path.parse spec.key spec.separator, spec.value⟩
  | .delete => .delete ⟨spec.key, spec.separator, spec.value⟩
  | .shift => .shift ⟨Path.parse (Text.beforeColon spec.key) spec.separator,
      Path.parse (Text.afterColon spec.key) spec.separator, spec.value⟩
  | .store => .store ⟨spec.key, Path.parse spec.value spec.separator⟩
  | .parse => .parse ⟨Path.parse spec.key spec.separator, .json⟩

theorem configure_of_wellFormed (h : spec.WellFormed op) :
    configure op spec = .ok (ofEntry op spec) := by
  cases op with
  | add =>
    rw [configure, Add.ofSpec, Path.ensureWritable_of_writable h]
    rfl
  | delete => rfl
  | shift =>
    obtain ⟨hcolon, hw⟩ := h
    rw [configure, Shift.ofSpec_of_colon hcolon, Path.ensureWritable_of_writable hw]
    rfl
  | store =>
    rw [configure, Store.ofSpec, if_neg h]
    rfl
  | parse =>
    have hjson : Text.Spells spec.value "json" := h
    rw [configure, Parse.ofSpec, Format.ofName_eq, if_pos hjson]
    rfl

theorem configure_of_refused (h : spec.Refused op e) : configure op spec = .error e := by
  cases h with
  | added h =>
    rw [configure, Add.ofSpec, Path.ensureWritable_of_exceeds h]
    rfl
  | colons h =>
    rw [configure, Shift.ofSpec_of_colons h]
    rfl
  | shifted hcolon h =>
    rw [configure, Shift.ofSpec_of_colon hcolon, Path.ensureWritable_of_exceeds h]
    rfl
  | unnamed h =>
    rw [configure, Store.ofSpec, if_pos h]
    rfl
  | format h =>
    rw [configure, Parse.ofSpec, Format.ofName_eq, if_neg h]
    rfl

/-- An entry becomes a rule when it is well formed, and is refused otherwise. -/
theorem configure_ruling (op : Operation) (spec : PathSpec) :
    Ruling (configure op spec) (spec.WellFormed op) (ofEntry op spec) (spec.Refused op) :=
  ⟨configure_of_wellFormed, configure_of_refused, spec.wellFormed_or_refused op⟩

end Rule

end EventPipeline
