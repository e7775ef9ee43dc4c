import EventPipeline.Proofs.Handler.Calls
import EventPipeline.Work.Schedule

/-!
Events that are transformed by one handler at the same time do not influence each other: however
their requests come to be mixed, each ends with the result it has on its own, and no variable is
left once all have ended (`Handler.calls_isolated`).
-/

namespace EventPipeline

theorem Storage.eventIds_eq_nil {s : Storage} (h : ∀ key, s.variablesOf key = []) :
    s.eventIds = [] := by
  cases hs : s.events with
  | nil => rw [eventIds, hs]; rfl
  | cons e events =>
    have he : e ∈ s.events := hs ▸ List.mem_cons_self
    have hv := h e.1
    rw [variablesOf, hs, Keyed.get?, if_pos rfl] at hv
    exact absurd hv (s.ne_nil e he)

namespace Handler

variable {h : Handler} {events : List Event}

/-- An event that finds no variables comes to its end, and leaves none. -/
theorem run_transform (h : Handler) (e : Event) {s : Shared}
    (hs : ∀ key, s.storage.variablesOf key = []) :
    ((h.transform e).run s).1 = (h.ending e).result ∧
      ∀ key, ((h.transform e).run s).2.storage.variablesOf key = [] := by
  rw [transform_eq]
  split
  · next he =>
    let key := storageKey e.id s.nextTicket
    obtain ⟨hresult, hleft, hbeside⟩ :=
      (h.session_alike key key e).confined.run ⟨s.nextTicket + 1, s.storage⟩
    rw [hs key] at hresult hleft
    refine ⟨hresult.trans (congrArg Work.Ending.result (h.ending_session he key)).symm,
      fun other => ?_⟩
    by_cases ho : other = key
    · rw [ho]
      exact hleft.trans (h.left_session key e [])
    · exact (hbeside.variablesOf other ho).trans (hs other)
  · next he =>
    rw [ending, transform_eq, if_neg he]
    exact ⟨rfl, hs⟩

theorem run_transform_fresh (h : Handler) (e : Event) :
    ((h.transform e).run .fresh).1 = (h.ending e).result :=
  (h.run_transform e fun _ => rfl).1

/-- The transformations of some events, after each has had some of its turns. -/
structure Underway (h : Handler) (events : List Event) (had : List Nat)
    (crew : Work.Crew (Except Error Transformed)) (calls : List Call) (drawn : Nat) : Prop where
  flight : Flight h (calls.map some) crew.shared drawn
  works : crew.works = calls.map Call.work
  events : events = calls.map Call.event
  left : ∀ {i c}, calls[i]? = some c → c.left = (h.ending c.event).turns - had.count i
  /-- There are tickets for all. -/
  tickets : drawn + Flight.waiting (calls.map some) ≤ UInt64.size

namespace Underway

variable {had : List Nat} {crew : Work.Crew (Except Error Transformed)} {calls : List Call}
  {drawn : Nat}

theorem start (h : Handler) (events : List Event) (hn : events.length ≤ UInt64.size) :
    h.Underway events [] ⟨events.map h.transform, .fresh⟩ (events.map (Call.start h)) 0 where
  flight := .start fun hi => by
    obtain ⟨d, hd, ⟨⟩⟩ := List.mem_map.mp (List.mem_of_getElem? hi)
    obtain ⟨e, -, he⟩ := List.mem_map.mp hd
    exact ⟨e, he.symm⟩
  works := by rw [List.map_map]; rfl
  events := by rw [List.map_map]; exact (List.map_id _).symm
  left {i c} hi := by
    obtain ⟨e, -, rfl⟩ := List.mem_map.mp (List.mem_of_getElem? hi)
    rfl
  tickets := by
    have := List.countP_le_length (p := (·.any Call.isWaiting))
      (l := (events.map (Call.start h)).map some)
    simp only [List.length_map] at this
    unfold Flight.waiting
    omega

theorem onCourse (u : h.Underway events had crew calls drawn) {i : Nat} {c : Call}
    (hc : calls[i]? = some c) : c.OnCourse h crew.shared.storage :=
  u.flight.onCourse (i := i) (by rw [List.getElem?_map, hc]; rfl)

theorem turn (u : h.Underway events had crew calls drawn) (i : Nat) :
    ∃ calls' drawn', h.Underway events (had ++ [i]) (crew.turn i) calls' drawn' := by
  have hcount (j : Nat) : (had ++ [i]).count j = had.count j + if i = j then 1 else 0 := by
    simp only [List.count_append, List.count_singleton, beq_iff_eq]
  by_cases hrun : ∃ c, calls[i]? = some c ∧ ∀ result, c.work ≠ .done result
  · obtain ⟨c, hc, hrun⟩ := hrun
    have hi : (calls.map some)[i]? = some (some c) := by rw [List.getElem?_map, hc]; rfl
    obtain ⟨c', drawn', f, hd, hevent, hwork, hleft⟩ := u.flight.step u.tickets hi hrun
    rw [← List.map_set] at f hd
    have hcrew : crew.works[i]? = some c.work := by
      rw [u.works, List.getElem?_map, hc]
      rfl
    have hturn : crew.turn i = ⟨(calls.set i c').map Call.work, (c.work.step crew.shared).2⟩ := by
      rw [crew.turn_eq hcrew, u.works, ← hwork, List.map_set]
    refine ⟨calls.set i c', drawn', hturn ▸ ⟨f, rfl, ?_, fun {j d} hj => ?_,
      Nat.le_trans hd u.tickets⟩⟩
    · rw [List.map_set, hevent, u.events]
      obtain ⟨hlen, hc⟩ := List.getElem?_eq_some_iff.mp hc
      rw [← hc, ← List.getElem_map Call.event (h := by simpa using hlen), List.set_getElem_self]
    · have hlen : i < calls.length := (List.getElem?_eq_some_iff.mp hc).1
      rw [hcount]
      by_cases hij : i = j
      · subst hij
        rw [List.getElem?_set_self hlen] at hj
        cases hj
        rw [if_pos rfl, hevent]
        have := u.left hc
        omega
      · rw [List.getElem?_set_ne hij] at hj
        rw [if_neg hij, Nat.add_zero, u.left hj]
  · have hdone {c : Call} (hc : calls[i]? = some c) : ∃ result, c.work = .done result :=
      Classical.byContradiction fun hn => hrun ⟨c, hc, fun r hr => hn ⟨r, hr⟩⟩
    have hturn : crew.turn i = crew := crew.turn_eq_self fun work hw => by
      rw [u.works, List.getElem?_map] at hw
      obtain ⟨c, hc, rfl⟩ := Option.map_eq_some_iff.mp hw
      exact hdone hc
    refine ⟨calls, drawn, hturn.symm ▸ { u with left := fun {j c} hj => ?_ }⟩
    rw [hcount]
    split
    · next hij =>
      subst hij
      obtain ⟨r, hr⟩ := hdone hj
      have hzero := ((u.onCourse hj).of_done hr).2.1
      have := u.left hj
      omega
    · exact u.left hj

theorem play (u : h.Underway events had crew calls drawn) (schedule : List Nat) :
    ∃ calls' drawn', h.Underway events (had ++ schedule) (crew.play schedule) calls' drawn' := by
  induction schedule generalizing had crew calls drawn with
  | nil => exact ⟨calls, drawn, by rwa [List.append_nil]⟩
  | cons i schedule ih =>
    obtain ⟨calls', drawn', u'⟩ := u.turn i
    obtain ⟨calls'', drawn'', u''⟩ := ih u'
    rw [List.append_assoc, List.singleton_append] at u''
    exact ⟨calls'', drawn'', u''⟩

end Underway

/--
Events of one handler never influence each other: whoever has its turn when, a call ends as soon
as it has had as many turns as it takes alone, with the result that it has alone; once all calls
have ended, the storage holds no event.
-/
theorem calls_isolated (h : Handler) (events : List Event) (hn : events.length ≤ UInt64.size)
    (schedule : List Nat) :
    let crew := (Work.Crew.mk (events.map h.transform) .fresh).play schedule
    (∀ i e r, events[i]? = some e →
      (crew.works[i]? = some (.done r) ↔
        (h.ending e).turns ≤ schedule.count i ∧ r = ((h.transform e).run .fresh).1)) ∧
    ((∀ w ∈ crew.works, ∃ r, w = .done r) → crew.shared.storage.eventIds = []) := by
  intro crew
  obtain ⟨calls, drawn, u⟩ := (Underway.start h events hn).play schedule
  refine ⟨fun i e r he => ?_, fun hdone => Storage.eventIds_eq_nil fun key => ?_⟩
  · obtain ⟨c, hc, rfl⟩ : ∃ c, calls[i]? = some c ∧ c.event = e := by
      rwa [u.events, List.getElem?_map, Option.map_eq_some_iff] at he
    have hleft := u.left hc
    rw [List.nil_append] at hleft
    rw [run_transform_fresh, u.works, List.getElem?_map, hc, Option.map_some, Option.some.injEq]
    constructor
    · intro hr
      obtain ⟨hresult, hzero, -⟩ := (u.onCourse hc).of_done hr
      exact ⟨by omega, hresult⟩
    · rintro ⟨hturns, rfl⟩
      exact (u.onCourse hc).done (by omega)
  · refine Classical.byContradiction fun hne => ?_
    obtain ⟨i, c, n, hi, hn, rfl⟩ := u.flight.nothingElse hne
    rw [List.getElem?_map, Option.map_eq_some_iff] at hi
    obtain ⟨c, hc, ⟨⟩⟩ := hi
    obtain ⟨r, hr⟩ := hdone c.work (u.works ▸ List.mem_map_of_mem (List.mem_of_getElem? hc))
    exact hne (((u.onCourse hc).of_done hr).2.2 n hn)

/-- Two events of one id take turns; each has kept a variable of the other's name. -/
theorem calls_isolated_twins :
    let h : Handler := ⟨⟨[]⟩, ⟨[.store ⟨"name", .root⟩]⟩⟩
    let e := { Event.ofAttributes "a#0" "s" "t" with data := some (.bool true) }
    let e' := { Event.ofAttributes "a#0" "s" "t" with data := some (.bool false) }
    let crew := (Work.Crew.mk [h.transform e, h.transform e'] .fresh).play [0, 1, 0, 1, 1, 0]
    [e, e'].length ≤ UInt64.size ∧
      crew.works[0]? = some (.done ((h.transform e).run .fresh).1) ∧
      crew.works[1]? = some (.done ((h.transform e').run .fresh).1) := by
  intro h e e' crew
  have hn : [e, e'].length ≤ UInt64.size := by decide
  have hturns : (h.ending e).turns = 3 := by decide +kernel
  have hturns' : (h.ending e').turns = 3 := by decide +kernel
  have hcalls := (h.calls_isolated [e, e'] hn [0, 1, 0, 1, 1, 0]).1
  exact ⟨hn, (hcalls 0 e _ rfl).mpr ⟨Nat.le_of_eq hturns, rfl⟩,
    (hcalls 1 e' _ rfl).mpr ⟨Nat.le_of_eq hturns', rfl⟩⟩

end Handler

end EventPipeline
