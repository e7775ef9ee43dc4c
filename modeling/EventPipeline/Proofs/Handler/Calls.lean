import EventPipeline.Proofs.Work.Locality
import Std.Data.String.ToNat

/-!
Calls of one handler that are in flight at the same time. Until a call draws its ticket, all of its
work is still to be done; from then on the work is confined to the variables under a key that no
other call has (`storageKey_inj`). What it comes to from these is what it comes to alone, and no
step of another call changes that (`Flight.step`).
-/

namespace EventPipeline

theorem eq_of_append_cons_eq {α : Type} {a : α} {x x' y y' : List α} (hx : a ∉ x) (hx' : a ∉ x')
    (h : x ++ a :: y = x' ++ a :: y') : x = x' ∧ y = y' := by
  rcases List.append_eq_append_iff.mp h with ⟨z, rfl, hz⟩ | ⟨z, rfl, hz⟩
  · cases z with
    | nil => exact ⟨(List.append_nil _).symm, (List.cons.inj hz).2⟩
    | cons b z =>
      obtain ⟨rfl, -⟩ := List.cons.inj hz
      simp at hx'
  · cases z with
    | nil => exact ⟨List.append_nil _, (List.cons.inj hz).2.symm⟩
    | cons b z =>
      obtain ⟨rfl, -⟩ := List.cons.inj hz
      simp at hx

theorem countP_set_add {α : Type} (f : α → Bool) {l : List α} {i : Nat} {x : α}
    (hi : l[i]? = some x) (y : α) :
    (l.set i y).countP f + (if f x then 1 else 0) = l.countP f + if f y then 1 else 0 := by
  obtain ⟨hlen, hi⟩ := List.getElem?_eq_some_iff.mp hi
  have hpos : (if f x then 1 else 0) ≤ l.countP f := by
    split
    · next hx => exact List.countP_pos_iff.mpr ⟨l[i], List.getElem_mem hlen, hi ▸ hx⟩
    · exact Nat.zero_le _
  have hset := List.countP_set (p := f) (a := y) hlen
  rw [hi] at hset
  omega

namespace Handler

theorem hash_notMem_repr (n : Nat) : '#' ∉ n.repr.toList := by
  intro hm
  rw [Nat.toList_repr] at hm
  have := Nat.isDigit_of_mem_toDigits (by decide) (by decide) hm
  simp at this

/-- Tickets and ids can be read off the keys, whatever characters the ids have: what follows the
last `#` is the ticket. -/
theorem storageKey_inj {id id' : String} {t t' : UInt64}
    (h : storageKey id t = storageKey id' t') : id = id' ∧ t = t' := by
  have h := congrArg (fun s => s.toList.reverse) h
  simp only [storageKey, String.toList_append, List.reverse_append, String.reduceToList,
    List.reverse_cons, List.reverse_nil, List.nil_append, List.cons_append, Nat.toString_eq_repr]
    at h
  have hn (n : Nat) : '#' ∉ n.repr.toList.reverse := by
    simpa only [List.mem_reverse] using hash_notMem_repr n
  obtain ⟨ht, hid⟩ := eq_of_append_cons_eq (hn _) (hn _) h
  exact ⟨String.toList_inj.mp (List.reverse_inj.mp hid),
    UInt64.toNat_inj.mp (Nat.repr_injective (String.toList_inj.mp (List.reverse_inj.mp ht)))⟩

end Handler

/-- A call of a handler. -/
structure Call where
  event : Event
  /-- The number of its ticket, once it is drawn. -/
  ticket : Option Nat
  work : Work (Except Error Transformed)
  /-- How many turns the work still takes. -/
  left : Nat

namespace Call

/-- What an event is called in the storage when its ticket has number `n`. -/
def key (e : Event) (n : Nat) : String := Handler.storageKey e.id (UInt64.ofNat n)

/-- A call that has had no turn yet. -/
def start (h : Handler) (e : Event) : Call := ⟨e, none, h.transform e, (h.ending e).turns⟩

/-- The call has yet to draw its ticket, or to learn that its content type is none of JSON. -/
def isWaiting (c : Call) : Bool := c.ticket.isNone

/-- From what the storage holds for it, the call comes to what it comes to alone. -/
inductive OnCourse (h : Handler) (storage : Storage) : Call → Prop where
  | waiting (e : Event) : OnCourse h storage (start h e)
  | running {e : Event} {n left : Nat} {work : Work (Except Error Transformed)} :
    work.Confined (key e n) →
      work.ending (storage.variablesOf (key e n)) = { h.ending e with turns := left } →
        OnCourse h storage ⟨e, some n, work, left⟩

variable {h : Handler} {storage storage' : Storage} {c : Call}

theorem key_inj {e e' : Event} {m n : Nat} (hm : m < UInt64.size) (hn : n < UInt64.size)
    (h : key e m = key e' n) : m = n := by
  have := congrArg UInt64.toNat (Handler.storageKey_inj h).2
  rwa [UInt64.toNat_ofNat_of_lt' hm, UInt64.toNat_ofNat_of_lt' hn] at this

/-- Only the variables under its own key matter to a call. -/
theorem OnCourse.congr (hc : c.OnCourse h storage)
    (hv : ∀ n, c.ticket = some n →
      storage'.variablesOf (key c.event n) = storage.variablesOf (key c.event n)) :
    c.OnCourse h storage' := by
  cases hc with
  | waiting e => exact .waiting e
  | running hw he => exact .running hw ((hv _ rfl).symm ▸ he)

/-- A call that takes no more turns is done. -/
theorem OnCourse.done (hc : c.OnCourse h storage) (hl : c.left = 0) :
    c.work = .done (h.ending c.event).result := by
  cases hc with
  | waiting e => exact Work.eq_done_of_turns hl
  | running _ he =>
    have hw := Work.eq_done_of_turns ((congrArg Work.Ending.turns he).trans hl)
    rw [he] at hw
    exact hw

/-- A call that is done has the result it has alone, and leaves nothing behind. -/
theorem OnCourse.of_done (hc : c.OnCourse h storage) {result : Except Error Transformed}
    (hw : c.work = .done result) :
    result = (h.ending c.event).result ∧ c.left = 0 ∧
      ∀ n, c.ticket = some n → storage.variablesOf (key c.event n) = [] := by
  cases hc with
  | waiting e =>
    have he : h.ending e = ⟨result, [], 0⟩ := congrArg (Work.ending · []) hw
    exact ⟨(congrArg Work.Ending.result he).symm, congrArg Work.Ending.turns he, nofun⟩
  | running _ he =>
    subst hw
    refine ⟨congrArg Work.Ending.result he, (congrArg Work.Ending.turns he).symm, ?_⟩
    rintro n ⟨⟩
    exact (congrArg Work.Ending.left he).trans (h.left_ending _)

end Call

/--
Calls in flight at the places of a list, after `drawn` tickets. Of the storage nothing is said but
that each call finds there what it would find alone, and that it holds nothing else.
-/
structure Flight (h : Handler) (calls : List (Option Call)) (s : Shared) (drawn : Nat) : Prop where
  onCourse : ∀ {i : Nat} {c : Call}, calls[i]? = some (some c) → c.OnCourse h s.storage
  nextTicket : s.nextTicket = UInt64.ofNat drawn
  ticket_lt : ∀ {i : Nat} {c : Call} {n}, calls[i]? = some (some c) → c.ticket = some n → n < drawn
  distinct : ∀ {i j : Nat} {c d : Call} {n}, calls[i]? = some (some c) → calls[j]? = some (some d) →
    c.ticket = some n → d.ticket = some n → i = j
  nothingElse : ∀ {key}, s.storage.variablesOf key ≠ [] →
    ∃ (i : Nat) (c : Call) (n : Nat),
      calls[i]? = some (some c) ∧ c.ticket = some n ∧ key = Call.key c.event n

namespace Flight

variable {h : Handler} {calls : List (Option Call)} {s : Shared} {drawn i : Nat} {c : Call}

theorem eq_or_of_set {x y : Option Call} {j : Nat} (hj : (calls.set i x)[j]? = some y) :
    (j = i ∧ y = x) ∨ (j ≠ i ∧ calls[j]? = some y) := by
  rw [List.getElem?_set] at hj
  split at hj
  · next hij =>
    split at hj
    · exact .inl ⟨hij.symm, (Option.some.inj hj).symm⟩
    · cases hj
  · next hij => exact .inr ⟨Ne.symm hij, hj⟩

/-- Calls that have had no turn yet are in flight. -/
theorem start (hc : ∀ {i : Nat} {c : Call}, calls[i]? = some (some c) → ∃ e, c = .start h e) :
    Flight h calls .fresh 0 := by
  refine ⟨fun hi => ?_, rfl, fun hi hn => ?_, fun hi _ hn _ => ?_, fun hne => absurd rfl hne⟩
  · obtain ⟨e, rfl⟩ := hc hi
    exact .waiting e
  · obtain ⟨e, rfl⟩ := hc hi
    cases hn
  · obtain ⟨e, rfl⟩ := hc hi
    cases hn

/-- A call draws its ticket. -/
theorem draw (f : Flight h calls s drawn) (hd : drawn < UInt64.size) {e : Event}
    (he : e.hasJsonData = true) (hi : calls[i]? = some (some (.start h e))) :
    Flight h
      (calls.set i (some ⟨e, some drawn, h.session (Call.key e drawn) e,
        ((h.session (Call.key e drawn) e).ending []).turns⟩))
      { s with nextTicket := s.nextTicket + 1 } (drawn + 1) := by
  have hlen : i < calls.length := (List.getElem?_eq_some_iff.mp hi).1
  have hnone : s.storage.variablesOf (Call.key e drawn) = [] := by
    refine Decidable.of_not_not fun hne => ?_
    obtain ⟨j, d, n, hj, hn, hk⟩ := f.nothingElse hne
    have hlt := f.ticket_lt hj hn
    exact absurd (Call.key_inj hd (Nat.lt_trans hlt hd) hk) (Nat.ne_of_gt hlt)
  refine ⟨fun {j d} hj => ?_, ?_, fun {j d n} hj hn => ?_, fun {j k d d' n} hj hk hn hn' => ?_,
    fun {key} hne => ?_⟩
  · rcases eq_or_of_set hj with ⟨-, ⟨⟩⟩ | ⟨-, hj⟩
    · refine .running (h.session_alike _ (Call.key e drawn) e).confined ?_
      rw [hnone, h.ending_session he (Call.key e drawn)]
    · exact f.onCourse hj
  · rw [f.nextTicket]
    exact (UInt64.ofNat_add drawn 1).symm
  · rcases eq_or_of_set hj with ⟨-, ⟨⟩⟩ | ⟨-, hj⟩
    · cases hn
      exact Nat.lt_succ_self _
    · exact Nat.lt_succ_of_lt (f.ticket_lt hj hn)
  · rcases eq_or_of_set hj with ⟨hji, ⟨⟩⟩ | ⟨-, hj'⟩ <;>
      rcases eq_or_of_set hk with ⟨hki, ⟨⟩⟩ | ⟨-, hk'⟩
    · exact hji.trans hki.symm
    · cases hn
      exact absurd (f.ticket_lt hk' hn') (Nat.lt_irrefl _)
    · cases hn'
      exact absurd (f.ticket_lt hj' hn) (Nat.lt_irrefl _)
    · exact f.distinct hj' hk' hn hn'
  · obtain ⟨j, d, n, hj, hn, hk⟩ := f.nothingElse hne
    have hji : i ≠ j := by
      rintro rfl
      rw [hi] at hj
      cases hj
      cases hn
    exact ⟨j, d, n, by rw [List.getElem?_set_ne hji]; exact hj, hn, hk⟩

/-- A call that has its ticket is answered a request. -/
theorem answer (f : Flight h calls s drawn) (hd : drawn ≤ UInt64.size) {e : Event} {n left : Nat}
    {request : Request} {resume : request.Answer → Work (Except Error Transformed)}
    (hi : calls[i]? = some (some ⟨e, some n, .ask request resume, left⟩)) :
    ∃ left', left = left' + 1 ∧
      Flight h (calls.set i (some ⟨e, some n, resume (s.answer request).1, left'⟩))
        (s.answer request).2 drawn := by
  have hlen : i < calls.length := (List.getElem?_eq_some_iff.mp hi).1
  have hn : n < drawn := f.ticket_lt hi rfl
  obtain ⟨hw, hend⟩ : (Work.ask request resume).Confined (Call.key e n) ∧
      (Work.ask request resume).ending (s.storage.variablesOf (Call.key e n)) =
        { h.ending e with turns := left } := by
    cases f.onCourse hi with
    | running hw hend => exact ⟨hw, hend⟩
  obtain ⟨hr, hw⟩ := Work.confined_ask_iff.mp hw
  obtain ⟨h₁, h₂, h₃⟩ := hr.answer s
  obtain ⟨left', hleft, hend⟩ := Work.ending_of_ask hend
  refine ⟨left', hleft, fun {j d} hj => ?_, h₃.nextTicket.trans f.nextTicket,
    fun {j d m} hj hm => ?_, fun {j k d d' m} hj hk hm hm' => ?_, fun {key} hne => ?_⟩
  · rcases eq_or_of_set hj with ⟨-, ⟨⟩⟩ | ⟨hji, hj⟩
    · refine .running (hw _) ?_
      rw [h₂, h₁]
      exact hend
    · refine (f.onCourse hj).congr fun m hm => h₃.variablesOf _ fun hk => hji ?_
      have hmn := Call.key_inj (Nat.lt_of_lt_of_le (f.ticket_lt hj hm) hd)
        (Nat.lt_of_lt_of_le hn hd) hk
      exact f.distinct hj hi (hmn ▸ hm) rfl
  · rcases eq_or_of_set hj with ⟨-, ⟨⟩⟩ | ⟨-, hj⟩
    · cases hm
      exact hn
    · exact f.ticket_lt hj hm
  · rcases eq_or_of_set hj with ⟨hji, ⟨⟩⟩ | ⟨-, hj'⟩ <;>
      rcases eq_or_of_set hk with ⟨hki, ⟨⟩⟩ | ⟨-, hk'⟩
    · exact hji.trans hki.symm
    · exact hji.trans (f.distinct hi hk' hm hm')
    · exact (f.distinct hj' hi hm hm').trans hki.symm
    · exact f.distinct hj' hk' hm hm'
  · by_cases hk : key = Call.key e n
    · exact ⟨i, _, n, List.getElem?_set_self hlen, rfl, hk⟩
    · rw [h₃.variablesOf key hk] at hne
      obtain ⟨j, d, m, hj, hm, hkey⟩ := f.nothingElse hne
      by_cases hji : i = j
      · subst hji
        rw [hi] at hj
        cases hj
        cases hm
        exact absurd hkey hk
      · exact ⟨j, d, m, by rw [List.getElem?_set_ne hji]; exact hj, hm, hkey⟩

/-- How many calls still have to draw their ticket, as far as one can tell. -/
def waiting (calls : List (Option Call)) : Nat := calls.countP (·.any Call.isWaiting)

theorem waiting_set {x : Option Call} (hi : calls[i]? = some x) (y : Option Call) :
    waiting (calls.set i y) + (if x.any Call.isWaiting then 1 else 0) =
      waiting calls + (if y.any Call.isWaiting then 1 else 0) :=
  countP_set_add (Option.any Call.isWaiting) hi y

/-- Whichever call has its turn, all calls stay in flight. As long as there are tickets for all,
the one that has its turn comes one step closer to its end. -/
theorem step (f : Flight h calls s drawn) (hd : drawn + waiting calls ≤ UInt64.size)
    (hi : calls[i]? = some (some c)) (hc : ∀ result, c.work ≠ .done result) :
    ∃ (c' : Call) (drawn' : Nat),
      Flight h (calls.set i (some c')) (c.work.step s).2 drawn' ∧
        drawn' + waiting (calls.set i (some c')) ≤ drawn + waiting calls ∧
        c'.event = c.event ∧ c'.work = (c.work.step s).1 ∧ c.left = c'.left + 1 := by
  cases f.onCourse hi with
  | waiting e =>
    have he : e.hasJsonData = true := by
      refine Decidable.of_not_not fun he => ?_
      exact hc _ ((h.transform_eq e).trans (if_neg he))
    have hleft : (h.ending e).turns = ((h.session (Call.key e drawn) e).ending []).turns + 1 :=
      congrArg Work.Ending.turns (h.ending_session he _)
    let c' : Call := ⟨e, some drawn, h.session (Call.key e drawn) e,
      ((h.session (Call.key e drawn) e).ending []).turns⟩
    have hset : waiting (calls.set i (some c')) + 1 = waiting calls := waiting_set hi (some c')
    have hstep : (h.transform e).step s =
        (c'.work, { s with nextTicket := s.nextTicket + 1 }) := by
      have hkey : Handler.storageKey e.id s.nextTicket = Call.key e drawn := by
        rw [f.nextTicket, Call.key]
      rw [h.transform_eq, if_pos he]
      exact congrArg (h.session · e, _) hkey
    refine ⟨c', drawn + 1, ?_, by omega, rfl, congrArg Prod.fst hstep.symm, hleft⟩
    rw [Call.start, hstep]
    exact f.draw (by omega) he hi
  | @running e n left work hw hend =>
    cases work with
    | done result => exact absurd rfl (hc result)
    | ask request resume =>
      obtain ⟨left', hleft, f'⟩ := f.answer (Nat.le_of_add_right_le hd) hi
      refine ⟨_, drawn, f', Nat.le_of_eq (congrArg (drawn + ·) ?_), rfl, rfl, hleft⟩
      exact waiting_set hi (some ⟨e, some n, resume (s.answer request).1, left'⟩)

/-- A call is taken up at a place that is free. -/
theorem begin (f : Flight h calls s drawn) (hi : calls[i]? = some none) (e : Event) :
    Flight h (calls.set i (some (.start h e))) s drawn := by
  refine ⟨fun {j d} hj => ?_, f.nextTicket, fun {j d n} hj hn => ?_,
    fun {j k d d' n} hj hk hn hn' => ?_, fun {key} hne => ?_⟩
  · rcases eq_or_of_set hj with ⟨-, ⟨⟩⟩ | ⟨-, hj⟩
    · exact .waiting e
    · exact f.onCourse hj
  · rcases eq_or_of_set hj with ⟨-, ⟨⟩⟩ | ⟨-, hj⟩
    · cases hn
    · exact f.ticket_lt hj hn
  · rcases eq_or_of_set hj with ⟨-, ⟨⟩⟩ | ⟨-, hj⟩
    · cases hn
    · rcases eq_or_of_set hk with ⟨-, ⟨⟩⟩ | ⟨-, hk⟩
      · cases hn'
      · exact f.distinct hj hk hn hn'
  · obtain ⟨j, d, n, hj, hn, hk⟩ := f.nothingElse hne
    have hji : i ≠ j := by
      rintro rfl
      rw [hi] at hj
      cases hj
    exact ⟨j, d, n, by rw [List.getElem?_set_ne hji]; exact hj, hn, hk⟩

/-- A call that is done leaves its place. -/
theorem finish (f : Flight h calls s drawn) (hi : calls[i]? = some (some c))
    {result : Except Error Transformed} (hc : c.work = .done result) :
    Flight h (calls.set i none) s drawn := by
  have hset {j : Nat} {d : Call} (hj : (calls.set i none)[j]? = some (some d)) :
      calls[j]? = some (some d) := by
    rcases eq_or_of_set hj with ⟨-, ⟨⟩⟩ | ⟨-, hj⟩
    exact hj
  refine ⟨fun hj => f.onCourse (hset hj), f.nextTicket, fun hj hn => f.ticket_lt (hset hj) hn,
    fun hj hk hn hn' => f.distinct (hset hj) (hset hk) hn hn', fun {key} hne => ?_⟩
  obtain ⟨j, d, n, hj, hn, rfl⟩ := f.nothingElse hne
  have hji : i ≠ j := by
    rintro rfl
    rw [hi] at hj
    cases hj
    exact hne (((f.onCourse hi).of_done hc).2.2 n hn)
  exact ⟨j, d, n, by rw [List.getElem?_set_ne hji]; exact hj, hn, rfl⟩

end Flight

end EventPipeline
