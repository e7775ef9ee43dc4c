import EventPipeline.Json.Typed
import EventPipeline.Proofs.Json.Reader

/-!
What holds of typed data because of how they are read: what every field of a record keeps, the
record has (`asRecord_induct`), and maps of trees are in order (`sound_of_asMap`).
-/

namespace EventPipeline

theorem bind_eq_ok {ε α β : Type} {x : Except ε α} {f : α → Except ε β} {b : β} :
    (x >>= f) = .ok b ↔ ∃ a, x = .ok a ∧ f a = .ok b := by
  cases x with
  | error e => exact ⟨nofun, fun ⟨_, ha, _⟩ => nomatch ha⟩
  | ok a => exact ⟨fun h => ⟨a, rfl, h⟩, fun ⟨_, ha, h⟩ => Except.ok.inj ha ▸ h⟩

theorem map_eq_ok {ε α β : Type} {x : Except ε α} {f : α → β} {b : β} :
    f <$> x = .ok b ↔ ∃ a, x = .ok a ∧ f a = b := by
  cases x with
  | error e => exact ⟨nofun, fun ⟨_, ha, _⟩ => nomatch ha⟩
  | ok a =>
    constructor
    · intro h
      exact ⟨a, rfl, Except.ok.inj h⟩
    · rintro ⟨_, ⟨⟩, rfl⟩
      rfl

theorem mapError_eq_ok_iff {ε ε' α : Type} {x : Except ε α} {f : ε → ε'} {a : α} :
    x.mapError f = .ok a ↔ x = .ok a := by
  cases x with
  | error e => exact ⟨nofun, nofun⟩
  | ok b => simp only [Except.mapError, Except.ok.injEq]

theorem bind_eq_error {ε α β : Type} {x : Except ε α} {f : α → Except ε β} {e : ε} :
    (x >>= f) = .error e ↔ x = .error e ∨ ∃ a, x = .ok a ∧ f a = .error e := by
  cases x with
  | error e' =>
    constructor
    · intro h
      cases h
      exact .inl rfl
    · rintro (h | ⟨_, ⟨⟩, -⟩)
      cases h
      rfl
  | ok a =>
    constructor
    · intro h
      exact .inr ⟨a, rfl, h⟩
    · rintro (h | ⟨_, ⟨⟩, h⟩)
      · cases h
      · exact h

theorem mapError_eq_error_iff {ε ε' α : Type} {x : Except ε α} {f : ε → ε'} {e : ε'} :
    x.mapError f = .error e ↔ ∃ cause, x = .error cause ∧ f cause = e := by
  cases x with
  | error cause => simp only [Except.mapError, Except.error.injEq, exists_eq_left']
  | ok a => exact ⟨nofun, fun ⟨_, ha, _⟩ => nomatch ha⟩

theorem eq_ok_of_toOption {ε α : Type} {x : Except ε α} {a : α} (h : x.toOption = some a) :
    x = .ok a := by
  cases x with
  | error e => cases h
  | ok b => exact congrArg Except.ok (Option.some.inj h)

namespace Json

variable {D σ : Type}

theorem sound_of_asTree {n : Node} {room : Nat} {t : Tree} (h : n.asTree room = .ok t) :
    t.Sound ∧ t.depth ≤ room := by
  rw [Node.asTree] at h
  split at h
  · next ht => exact sound_of_tree? (Except.ok.inj h ▸ ht)
  · cases h

/-- Optional data are nothing, or what their reader has read. -/
theorem of_asOptional {α : Type} {read : Node → Except Problem α} {n : Node} {o : Option α}
    (h : n.asOptional read = .ok o) : o = none ∨ ∃ a, o = some a ∧ read n = .ok a := by
  rw [Node.asOptional.eq_def] at h
  split at h
  · exact .inl (Except.ok.inj h).symm
  · cases hr : read n with
    | error e => rw [hr] at h; cases h
    | ok a => rw [hr] at h; exact .inr ⟨a, (Except.ok.inj h).symm, rfl⟩

section

variable {P : σ → Prop}

theorem foldMembers_induct {read : String → Node → σ → Except Problem σ}
    (hread : ∀ name n s s', P s → read name n s = .ok s' → P s') {s s' : σ}
    {members : List (Option String × Node)} (hs : P s)
    (h : Node.foldMembers read s members = .ok s') : P s' := by
  induction members generalizing s with
  | nil => exact Except.ok.inj h ▸ hs
  | cons m rest ih =>
    obtain ⟨name, n⟩ := m
    cases name with
    | none => cases h
    | some name =>
      obtain ⟨next, hnext, h⟩ := bind_eq_ok.mp h
      exact ih (hread name n s next hs hnext) h

end

section

variable {s : Schema Node D} {P : D → Prop}
  (hfield : ∀ field ∈ s.fields, ∀ n d d', P d → field.read n d = .ok d' → P d')

include hfield

theorem items_induct {d d' : D} {i : Nat} {fields : List (Field Node D)} {values left : List Node}
    (hfields : ∀ field ∈ fields, field ∈ s.fields) (hd : P d)
    (h : s.items d i fields values = .ok (d', left)) : P d' := by
  induction fields generalizing d i values with
  | nil =>
    cases h
    exact hd
  | cons field fields ih =>
    have hrest : ∀ f ∈ fields, f ∈ s.fields := fun f hf => hfields f (List.mem_cons_of_mem _ hf)
    cases values with
    | nil =>
      rw [Schema.items] at h
      split at h
      · cases h
      · exact ih hrest hd h
    | cons n values =>
      obtain ⟨next, hnext, h⟩ := bind_eq_ok.mp h
      exact ih hrest (hfield field (hfields field List.mem_cons_self) n d next hd hnext) h

variable (hother : ∀ name n d d', P d → s.other name n d = .ok d' → P d')

include hother

theorem member_induct {draft draft' : Schema.Draft D} {name : String} {n : Node}
    (hd : P draft.record) (h : s.member draft name n = .ok draft') : P draft'.record := by
  rw [Schema.member] at h
  split at h
  · obtain ⟨record, hrecord, h⟩ := bind_eq_ok.mp h
    cases h
    exact hother name n _ record hd hrecord
  · next field hf =>
    split at h
    · cases h
    · obtain ⟨record, hrecord, h⟩ := bind_eq_ok.mp h
      cases h
      exact hfield field (List.mem_of_find?_eq_some hf) n _ record hd hrecord

theorem asObject_induct {start d : D} {n : Node} (hstart : P start)
    (h : n.asObject s start = .ok d) : P d := by
  cases n with
  | object members closed =>
    obtain ⟨draft, hdraft, h⟩ := bind_eq_ok.mp h
    obtain ⟨-, -, h⟩ := bind_eq_ok.mp h
    have := foldMembers_induct (P := fun draft => P draft.record)
      (fun name n _ _ => member_induct hfield hother) hstart hdraft
    rw [Schema.complete] at h
    split at h
    · cases h
    · exact Except.ok.inj h ▸ this
  | _ => cases h

/-- What a record has at the start and every field keeps, it has in the end. -/
theorem asRecord_induct {start d : D} {n : Node} (hstart : P start)
    (h : n.asRecord s start = .ok d) : P d := by
  cases n with
  | array items closed =>
    obtain ⟨⟨record, left⟩, hitems, h⟩ := bind_eq_ok.mp h
    obtain ⟨-, -, h⟩ := bind_eq_ok.mp h
    cases h
    exact items_induct hfield (fun _ hf => hf) hstart hitems
  | _ =>
    simp only [Node.asRecord] at h
    exact asObject_induct hfield hother hstart h

end

theorem sound_of_asMap {n : Node} {room : Nat} {m : Keyed Tree} (h : n.asMap room = .ok m) :
    Keyed.Sorted m ∧ ∀ e ∈ m, e.2.Sound := by
  cases n with
  | object members closed =>
    obtain ⟨m', hm', h⟩ := bind_eq_ok.mp h
    obtain ⟨-, -, h⟩ := bind_eq_ok.mp h
    cases h
    refine foldMembers_induct (P := fun m : Keyed Tree => Keyed.Sorted m ∧ ∀ e ∈ m, e.2.Sound)
      (fun name n m next hm hnext => ?_) ⟨.nil, nofun⟩ hm'
    obtain ⟨t, ht, hnext⟩ := bind_eq_ok.mp hnext
    cases hnext
    refine ⟨Keyed.sorted_insert hm.1 name t, fun e he => ?_⟩
    rcases Keyed.mem_insert he with rfl | he
    · exact (sound_of_asTree ht).1
    · exact hm.2 e he
  | _ => cases h

theorem of_readTyped {α : Type} {read : Node → Except Problem α} {s : String} {a : α}
    (h : readTyped read s = .ok a) : ∃ n, read n = .ok a := by
  obtain ⟨a', ha, h⟩ := bind_eq_ok.mp h
  obtain ⟨-, -, h⟩ := bind_eq_ok.mp h
  cases h
  exact ⟨_, ha⟩

theorem of_decodeTyped {α : Type} {read : Node → Except Problem α} {bytes : ByteArray} {a : α}
    (h : decodeTyped read bytes = .ok a) : ∃ n, read n = .ok a := by
  rw [decodeTyped] at h
  split at h
  · exact of_readTyped h
  · cases h

end Json

end EventPipeline
