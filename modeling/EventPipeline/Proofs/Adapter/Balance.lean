import EventPipeline.Adapter.Pool
import EventPipeline.Proofs.Adapter.Dues

/-!
The counts of a pool balance. At any time, whatever the calls come to, each line that was counted as
received has been counted once more or is still with the reader, in the queue or with a worker, and
each event that was sent has been counted as forwarded or is about to be (`Pool.Balanced`). Every
turn keeps it so. The counters show the tally of what was counted.
-/

namespace EventPipeline.Adapter

theorem readable_cons_none {line : ByteArray} (hs : String.fromUTF8? line = none)
    (lines : List ByteArray) : readable (line :: lines) = ([], true) := by
  rw [readable, hs]

theorem readable_cons_some {line : ByteArray} {s : String} (hs : String.fromUTF8? line = some s)
    (lines : List ByteArray) :
    readable (line :: lines) = (s :: (readable lines).1, (readable lines).2) := by
  rw [readable, hs]

namespace Reader

/-- The lines whose events are still to be put into the queue, and whether a line is no text. -/
def rest : Reader → List String × Bool
  | .reading lines => readable lines
  | .holding line lines => (line :: (readable lines).1, (readable lines).2)
  | .finished => ([], false)
  | .failed => ([], true)

/-- The lines that are still to be counted as received. -/
def unread : Reader → List String
  | .reading lines | .holding _ lines => (readable lines).1
  | .finished | .failed => []

/-- How many lines have been counted, but not dealt with. -/
def inHand : Reader → Nat
  | .holding .. => 1
  | _ => 0

end Reader

namespace Worker

/-- The worker has an event that is not counted yet. -/
def isAtWork : Worker → Bool
  | .idle => false
  | _ => true

/-- The worker has sent an event that is not counted yet. -/
def hasSent : Worker → Bool
  | .counting v => v.isForwarded
  | _ => false

end Worker

namespace Pool

/-- Nothing that was received or sent has been lost sight of. -/
structure Balanced (input : List String × Bool) (p : Pool) (t : Tally) : Prop where
  stats : p.stats = t.stats
  failed : p.reader.rest.2 = input.2
  received : t.received + receivable p.reader.unread = receivable input.1
  settled : t.received =
    t.settled + p.reader.inHand + p.queue.length + p.workers.countP Worker.isAtWork
  forwarded : p.sent.length = t.forwarded + p.workers.countP Worker.hasSent

namespace Balanced

variable {a : Adapter} {accepts : Event → Bool} {input : List String × Bool} {p : Pool} {t : Tally}

theorem workerTurn (b : p.Balanced input t) (i : Nat) :
    ∃ t', (p.workerTurn a accepts i).Balanced input t' := by
  have b' := b
  obtain ⟨hstats, hfailed, hreceived, hsettled, hforwarded⟩ := b
  rw [Pool.workerTurn]
  cases hi : p.workers[i]? with
  | none => exact ⟨t, b'⟩
  | some w =>
    have hwork := countP_set_add Worker.isAtWork hi
    have hsent := countP_set_add Worker.hasSent hi
    cases w with
    | idle =>
      cases hq : p.queue with
      | nil => exact ⟨t, b'⟩
      | cons e queue =>
        have hwork : _ + 0 = _ + 1 := hwork (.busy (a.handler.transform e))
        have hsent : _ + 0 = _ + 0 := hsent (.busy (a.handler.transform e))
        rw [hq, List.length_cons] at hsettled
        refine ⟨t, hstats, hfailed, hreceived, ?_, ?_⟩ <;> simp only <;> omega
    | busy work =>
      cases work with
      | done result =>
        have hwork : _ + 1 = _ + 1 := hwork (.counting (verdict accepts result))
        have hsent : _ + 0 = _ + _ := hsent (.counting (verdict accepts result))
        rw [Worker.hasSent, ← length_taken] at hsent
        refine ⟨t, hstats, hfailed, hreceived, ?_, ?_⟩ <;> simp only [List.length_append] <;> omega
      | ask request resume =>
        have hwork : _ + 1 = _ + 1 := hwork (.busy ((Work.ask request resume).step p.shared).1)
        have hsent : _ + 0 = _ + 0 := hsent (.busy ((Work.ask request resume).step p.shared).1)
        refine ⟨t, hstats, hfailed, hreceived, ?_, ?_⟩ <;> simp only <;> omega
    | counting v =>
      have hwork : _ + 1 = _ + 0 := hwork .idle
      have hsent : _ + _ = _ + 0 := hsent .idle
      rw [Worker.hasSent] at hsent
      have hstats' : p.stats.count v = (t.count v).stats := by rw [hstats, t.stats_count]
      refine ⟨t.count v, hstats', hfailed, ?_, ?_, ?_⟩ <;>
        simp only [Tally.received_count, Tally.settled_count, Tally.forwarded_count] <;> omega

/-- The reader goes to the next line. -/
theorem read (b : p.Balanced input t) {lines : List ByteArray} (hr : p.reader = .reading lines) :
    ∃ t', (p.readerTurn a).Balanced input t' := by
  obtain ⟨hstats, hfailed, hreceived, hsettled, hforwarded⟩ := b
  rw [Pool.readerTurn, hr]
  simp only [hr, Reader.rest, Reader.unread] at hfailed hreceived hsettled
  cases lines with
  | nil => exact ⟨t, hstats, hfailed, hreceived, hsettled, hforwarded⟩
  | cons line lines =>
    cases hs : String.fromUTF8? line with
    | none =>
      rw [readable_cons_none hs] at hfailed hreceived
      simp only [hs]
      exact ⟨t, hstats, hfailed, hreceived, hsettled, hforwarded⟩
    | some s =>
      rw [readable_cons_some hs] at hfailed hreceived
      rw [receivable_cons] at hreceived
      simp only [hs]
      split
      · next hb =>
        rw [if_pos hb] at hreceived
        exact ⟨t, hstats, hfailed, hreceived, hsettled, hforwarded⟩
      · next hb =>
        rw [if_neg hb] at hreceived
        simp only [Reader.inHand] at hsettled
        have hstats' : p.stats.receive = t.receive.stats := by rw [hstats, t.stats_receive]
        refine ⟨t.receive, hstats', hfailed, ?_, ?_, hforwarded⟩
        · simp only [Reader.unread, Tally.receive]
          omega
        · simp only [Reader.inHand, Tally.receive, Tally.settled] at hsettled ⊢
          omega

/-- The reader counts the line in hand as rejected, or puts its event into the queue. -/
theorem hand (b : p.Balanced input t) {line : String} {lines : List ByteArray}
    (hr : p.reader = .holding line lines) : ∃ t', (p.readerTurn a).Balanced input t' := by
  have b' := b
  obtain ⟨hstats, hfailed, hreceived, hsettled, hforwarded⟩ := b
  rw [Pool.readerTurn, hr]
  simp only [hr, Reader.rest, Reader.unread, Reader.inHand] at hfailed hreceived hsettled
  cases he : Event.read line with
  | error problem =>
    simp only [he]
    have hstats' : p.stats.count .rejected = (t.count .rejected).stats := by
      rw [hstats, t.stats_count]
    refine ⟨t.count .rejected, hstats', hfailed, hreceived, ?_, hforwarded⟩
    simp only [Reader.inHand, Tally.received_count, Tally.settled_count]
    omega
  | ok e =>
    simp only [he]
    split
    · refine ⟨t, hstats, hfailed, hreceived, ?_, hforwarded⟩
      simp only [Reader.inHand, List.length_append, List.length_singleton]
      omega
    · exact ⟨t, b'⟩

theorem readerTurn (b : p.Balanced input t) : ∃ t', (p.readerTurn a).Balanced input t' := by
  cases hr : p.reader with
  | reading lines => exact b.read hr
  | holding line lines => exact b.hand hr
  | finished | failed =>
    rw [Pool.readerTurn, hr]
    exact ⟨t, b⟩

variable (accepts) in
theorem play (b : p.Balanced input t) (schedule : List Turn) :
    ∃ t', (p.play a accepts schedule).Balanced input t' := by
  induction schedule generalizing p t with
  | nil => exact ⟨t, b⟩
  | cons turn schedule ih =>
    cases turn with
    | reader =>
      obtain ⟨t', b'⟩ := b.readerTurn
      exact ih b'
    | worker i =>
      obtain ⟨t', b'⟩ := b.workerTurn i
      exact ih b'

end Balanced

end Pool

end EventPipeline.Adapter
