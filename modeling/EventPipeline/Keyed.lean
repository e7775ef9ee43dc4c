/-!
Collections of values under distinct text keys, listed in ascending order of the keys. Two such
collections with the same entries are the same list. Main statements: `insert` and `erase` keep
the order, and change what is found under their own key only; under different keys, values are
inserted in any order.
-/

namespace EventPipeline

/-- Entries of a key and a value; a collection when the keys ascend (`Keyed.Sorted`). -/
abbrev Keyed (α : Type) := List (String × α)

namespace Keyed

variable {α : Type}

/-- The value under a key. -/
def get? (key : String) : Keyed α → Option α
  | [] => none
  | (k, a) :: m => if k = key then some a else get? key m

/-- Puts a value under a key, in place of the one that is there. -/
def insert (key : String) (value : α) : Keyed α → Keyed α
  | [] => [(key, value)]
  | (k, a) :: m =>
    if k = key then (key, value) :: m
    else if key < k then (key, value) :: (k, a) :: m
    else (k, a) :: insert key value m

/-- Removes a key and its value. -/
def erase (key : String) : Keyed α → Keyed α
  | [] => []
  | (k, a) :: m => if k = key then m else (k, a) :: erase key m

/-- The keys, in their order. -/
def keys (m : Keyed α) : List String := m.map Prod.fst

/-- The keys ascend; in particular they are distinct. -/
def Sorted (m : Keyed α) : Prop := m.Pairwise fun x y => x.1 < y.1

@[simp] theorem get?_nil (key : String) : get? key ([] : Keyed α) = none := rfl

@[simp] theorem sorted_nil : Sorted ([] : Keyed α) := .nil

@[simp] theorem get?_insert_self (key : String) (value : α) (m : Keyed α) :
    get? key (insert key value m) = some value := by
  induction m with
  | nil => simp [insert, get?]
  | cons e m ih =>
    obtain ⟨k, a⟩ := e
    by_cases hk : k = key
    · simp [insert, get?, hk]
    · by_cases hl : key < k <;> simp [insert, get?, hk, hl, ih]

theorem get?_insert_of_ne {key other : String} (h : other ≠ key) (value : α) (m : Keyed α) :
    get? other (insert key value m) = get? other m := by
  induction m with
  | nil => simp [insert, get?, Ne.symm h]
  | cons e m ih =>
    obtain ⟨k, a⟩ := e
    by_cases hk : k = key
    · subst hk; simp [insert, get?, Ne.symm h]
    · by_cases hl : key < k <;> simp [insert, get?, hk, hl, ih, Ne.symm h]

theorem get?_erase_of_ne {key other : String} (h : other ≠ key) (m : Keyed α) :
    get? other (erase key m) = get? other m := by
  induction m with
  | nil => rfl
  | cons e m ih =>
    obtain ⟨k, a⟩ := e
    by_cases hk : k = key
    · subst hk; simp [erase, get?, Ne.symm h]
    · simp [erase, get?, hk, ih]

theorem get?_eq_none {key : String} {m : Keyed α} (h : ∀ e ∈ m, e.1 ≠ key) :
    get? key m = none := by
  induction m with
  | nil => rfl
  | cons e m ih =>
    obtain ⟨k, a⟩ := e
    simp [get?, h _ List.mem_cons_self, ih fun x hx => h x (List.mem_cons_of_mem _ hx)]

/-- What is found under a key is an entry of the collection. -/
theorem mem_of_get? {key : String} {a : α} {m : Keyed α} (h : get? key m = some a) :
    (key, a) ∈ m := by
  induction m with
  | nil => simp at h
  | cons e m ih =>
    obtain ⟨k, b⟩ := e
    rw [get?] at h
    split at h
    · next hk => simp_all
    · exact List.mem_cons_of_mem _ (ih h)

theorem insert_ne_nil (key : String) (value : α) (m : Keyed α) : insert key value m ≠ [] := by
  unfold insert
  split
  · simp
  · split
    · simp
    · split <;> simp

theorem mem_insert {key : String} {value : α} {m : Keyed α} {e : String × α}
    (h : e ∈ insert key value m) : e = (key, value) ∨ e ∈ m := by
  induction m with
  | nil => simpa [insert] using h
  | cons x m ih =>
    obtain ⟨k, a⟩ := x
    rw [insert] at h
    split at h
    · exact (List.mem_cons.mp h).imp_right (List.mem_cons_of_mem _)
    · split at h
      · simpa using h
      · rcases List.mem_cons.mp h with h | h
        · exact .inr (h ▸ List.mem_cons_self)
        · exact (ih h).imp_right (List.mem_cons_of_mem _)

theorem lt_of_not_lt {a b : String} (h : ¬ a < b) (hne : b ≠ a) : b < a :=
  Std.lt_of_le_of_ne (Std.not_lt.mp h) hne

/-- Inserting keeps the order of the keys. -/
theorem sorted_insert {m : Keyed α} (hm : Sorted m) (key : String) (value : α) :
    Sorted (insert key value m) := by
  induction m with
  | nil => simp [insert, Sorted]
  | cons e m ih =>
    obtain ⟨k, a⟩ := e
    obtain ⟨hk, hm⟩ := List.pairwise_cons.mp hm
    rw [insert]
    split
    · next h => subst h; exact List.pairwise_cons.mpr ⟨hk, hm⟩
    · next hne =>
      split
      · next hlt =>
        refine List.pairwise_cons.mpr ⟨fun x hx => ?_, List.pairwise_cons.mpr ⟨hk, hm⟩⟩
        rcases List.mem_cons.mp hx with rfl | hx
        · exact hlt
        · exact String.lt_trans hlt (hk x hx)
      · next hlt =>
        refine List.pairwise_cons.mpr ⟨fun x hx => ?_, ih hm⟩
        rcases mem_insert hx with rfl | hx
        · exact lt_of_not_lt hlt hne
        · exact hk x hx

/-- A key above all others comes last. -/
theorem insert_of_lt {key : String} {m : Keyed α} (h : ∀ e ∈ m, e.1 < key) (value : α) :
    insert key value m = m ++ [(key, value)] := by
  induction m with
  | nil => rfl
  | cons e m ih =>
    obtain ⟨k, a⟩ := e
    have hk : k < key := h _ List.mem_cons_self
    rw [insert, if_neg (String.ne_of_lt hk), if_neg (Std.not_lt.mpr (Std.le_of_lt hk)),
      ih fun e he => h e (List.mem_cons_of_mem _ he)]
    rfl

/-- Of two values under one key the later one stays. -/
@[simp] theorem insert_insert_self (key : String) (first second : α) (m : Keyed α) :
    insert key second (insert key first m) = insert key second m := by
  induction m with
  | nil => simp [insert]
  | cons e m ih =>
    obtain ⟨k, a⟩ := e
    by_cases hk : k = key
    · simp [insert, hk]
    · by_cases hl : key < k <;> simp [insert, hk, hl, ih]

theorem insert_comm_of_lt {key other : String} (h : key < other) (x y : α) (m : Keyed α) :
    insert key x (insert other y m) = insert other y (insert key x m) := by
  have hne : key ≠ other := String.ne_of_lt h
  have hnlt : ¬ other < key := Std.not_lt.mpr (Std.le_of_lt h)
  induction m with
  | nil => simp [insert, h, hne, hne.symm, hnlt]
  | cons e m ih =>
    obtain ⟨k, a⟩ := e
    by_cases hk : k = key
    · subst hk
      simp [insert, hne, hnlt]
    by_cases hl : key < k
    · by_cases ho : k = other
      · subst ho
        simp [insert, hne, hne.symm, hnlt, h]
      · by_cases hlo : other < k <;> simp [insert, hk, hl, ho, hlo, hne, hne.symm, hnlt, h]
    · -- The head is below both keys and stays in front.
      have ho : k ≠ other := fun e => hl (e ▸ h)
      have hlo : ¬ other < k := fun hlt => hl (String.lt_trans h hlt)
      simp [insert, hk, hl, ho, hlo, ih]

/-- Values under different keys are inserted in any order. -/
theorem insert_comm {key other : String} (h : key ≠ other) (x y : α) (m : Keyed α) :
    insert key x (insert other y m) = insert other y (insert key x m) := by
  by_cases hlt : key < other
  · exact insert_comm_of_lt hlt x y m
  · exact (insert_comm_of_lt (lt_of_not_lt hlt h.symm) y x m).symm

theorem sublist_erase (key : String) (m : Keyed α) : (erase key m).Sublist m := by
  induction m with
  | nil => exact .slnil
  | cons e m ih =>
    obtain ⟨k, a⟩ := e
    rw [erase]
    split
    · exact List.sublist_cons_self _ _
    · exact ih.cons_cons _

/-- Erasing keeps the order of the keys. -/
theorem sorted_erase {m : Keyed α} (hm : Sorted m) (key : String) : Sorted (erase key m) :=
  List.Pairwise.sublist (sublist_erase key m) hm

/-- An erased key is no longer found. -/
theorem get?_erase_self {m : Keyed α} (hm : Sorted m) (key : String) :
    get? key (erase key m) = none := by
  induction m with
  | nil => rfl
  | cons e m ih =>
    obtain ⟨k, a⟩ := e
    obtain ⟨hk, hm⟩ := List.pairwise_cons.mp hm
    rw [erase]
    split
    · next h =>
      subst h
      exact get?_eq_none fun x hx => (String.ne_of_lt (hk x hx)).symm
    · next h => simp [get?, h, ih hm]

/-- The keys are those under which something is found. -/
theorem mem_keys_iff {key : String} {m : Keyed α} : key ∈ keys m ↔ (get? key m).isSome := by
  induction m with
  | nil => simp [keys]
  | cons e m ih =>
    obtain ⟨k, a⟩ := e
    rw [keys, List.map_cons, List.mem_cons, get?]
    split
    · next h => simp [h]
    · next h => rw [← ih, or_iff_right (Ne.symm h), keys]

theorem nodup_keys {m : Keyed α} (hm : Sorted m) : (keys m).Nodup :=
  List.pairwise_map.mpr (hm.imp String.ne_of_lt)

/-- Below the first key nothing is found. -/
theorem get?_eq_none_of_lt {key k : String} {a : α} {m : Keyed α} (hm : Sorted ((k, a) :: m))
    (h : key < k) : get? key ((k, a) :: m) = none := by
  obtain ⟨hk, -⟩ := List.pairwise_cons.mp hm
  refine get?_eq_none fun x hx => ?_
  rcases List.mem_cons.mp hx with rfl | hx
  · exact (String.ne_of_lt h).symm
  · exact (String.ne_of_lt (String.lt_trans h (hk x hx))).symm

/-- Collections in which the same is found under every key are the same. -/
theorem eq_of_get?_eq {m n : Keyed α} (hm : Sorted m) (hn : Sorted n)
    (h : ∀ key, get? key m = get? key n) : m = n := by
  induction m generalizing n with
  | nil =>
    cases n with
    | nil => rfl
    | cons f n => simpa [get?] using h f.1
  | cons e m ih =>
    obtain ⟨k, a⟩ := e
    cases n with
    | nil => simpa [get?] using h k
    | cons f n =>
      obtain ⟨l, b⟩ := f
      have hkl : k = l := by
        refine Decidable.of_not_not fun hne => ?_
        by_cases hlt : k < l
        · have := h k
          rw [get?_eq_none_of_lt hn hlt] at this
          simp [get?] at this
        · have := h l
          rw [get?_eq_none_of_lt hm (lt_of_not_lt hlt (Ne.symm hne))] at this
          simp [get?] at this
      subst hkl
      obtain ⟨hk, hm⟩ := List.pairwise_cons.mp hm
      obtain ⟨hk', hn⟩ := List.pairwise_cons.mp hn
      have hab : a = b := by simpa [get?] using h k
      refine congr (congrArg _ (congrArg _ hab)) (ih hm hn fun key => ?_)
      by_cases hkey : k = key
      · subst hkey
        rw [get?_eq_none fun x hx => (String.ne_of_lt (hk x hx)).symm,
          get?_eq_none fun x hx => (String.ne_of_lt (hk' x hx)).symm]
      · simpa [get?, hkey] using h key

end Keyed

end EventPipeline
