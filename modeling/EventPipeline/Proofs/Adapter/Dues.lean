import EventPipeline.Adapter.Basic
import EventPipeline.Proofs.Handler.Isolation

/-!
What a run of an adapter has to bring. Each line is *due* the verdict on it and the events that the
sink takes of it; these depend on the line alone. A run is right when it pays what is due, whatever
the order (`eq_and_perm_of_paid`). Handling the lines one by one does (`handled_run`). The counters
of a run start again after the last number, so what it has paid is kept in a tally beside them, of
which they show the last 64 bits (`Tally.stats`).
-/

namespace EventPipeline.Adapter

/-- The event of a line, if it has one. -/
def event? (line : String) : Option Event :=
  if Text.allBlank line then none else (Event.read line).toOption

/-- The events of lines, in their order. -/
def events (lines : List String) : List Event := lines.filterMap event?

/-- How many of the lines are counted as received. -/
def receivable (lines : List String) : Nat := lines.countP (!Text.allBlank ·)

/-- What a run may bring: a verdict to be counted, or an event to be sent. -/
inductive Due where
  | verdict (v : Verdict)
  | sent (e : Event)
deriving DecidableEq

/-- What is due for a result. -/
def dues (accepts : Event → Bool) (result : Except Error Transformed) : List Due :=
  .verdict (verdict accepts result) :: (taken accepts result).map .sent

section

variable (h : Handler) (accepts : Event → Bool)

/-- What is due for an event. -/
def eventDues (e : Event) : List Due := dues accepts (h.ending e).result

/-- What is due for a line. -/
def lineDues (line : String) : List Due :=
  if Text.allBlank line then []
  else
    match Event.read line with
    | .error _ => [.verdict .rejected]
    | .ok e => eventDues h accepts e

end

end Adapter

/-- What a run has counted, in numbers of any size. -/
structure Tally where
  received : Nat := 0
  transformed : Nat := 0
  flawed : Nat := 0
  rejected : Nat := 0

/-- Whether an event was sent. -/
def Verdict.isForwarded : Verdict → Bool
  | .rejected => false
  | _ => true

namespace Tally

/-- The tally as counters show it. -/
def stats (t : Tally) : Stats where
  received := .ofNat t.received
  transformed := .ofNat t.transformed
  flawed := .ofNat t.flawed
  rejected := .ofNat t.rejected

def receive (t : Tally) : Tally := { t with received := t.received + 1 }

def count (t : Tally) : Verdict → Tally
  | .transformed => { t with transformed := t.transformed + 1 }
  | .flawed => { t with flawed := t.flawed + 1 }
  | .rejected => { t with rejected := t.rejected + 1 }

def of (t : Tally) : Verdict → Nat
  | .transformed => t.transformed
  | .flawed => t.flawed
  | .rejected => t.rejected

/-- How many lines were counted for what became of them. -/
def settled (t : Tally) : Nat := t.transformed + t.flawed + t.rejected

/-- How many events were counted as sent. -/
def forwarded (t : Tally) : Nat := t.transformed + t.flawed

variable (t : Tally) (v w : Verdict)

theorem stats_receive : t.receive.stats = t.stats.receive := by
  simp only [stats, receive, Stats.receive, UInt64.ofNat_add]
  rfl

theorem stats_count : (t.count v).stats = t.stats.count v := by
  cases v <;> simp only [stats, count, Stats.count, UInt64.ofNat_add] <;> rfl

theorem of_count : (t.count v).of w = t.of w + if v = w then 1 else 0 := by
  cases v <;> cases w <;> rfl

theorem received_count : (t.count v).received = t.received := by cases v <;> rfl

theorem settled_count : (t.count v).settled = t.settled + 1 := by
  cases v <;> simp only [count, settled] <;> omega

theorem forwarded_count :
    (t.count v).forwarded = t.forwarded + if v.isForwarded then 1 else 0 := by
  cases v with
  | transformed => exact Nat.add_right_comm t.transformed 1 t.flawed
  | flawed => exact (Nat.add_assoc t.transformed t.flawed 1).symm
  | rejected => rfl

end Tally

theorem length_taken (accepts : Event → Bool) (result : Except Error Transformed) :
    (taken accepts result).length = if (verdict accepts result).isForwarded then 1 else 0 := by
  cases result with
  | error e => rfl
  | ok t =>
    rw [verdict, taken]
    cases accepts t.event <;> cases t.isPartial <;> rfl

namespace Adapter

/-- How often something has been brought. -/
def paid (t : Tally) (sent : List Event) : Due → Nat
  | .verdict v => t.of v
  | .sent e => sent.count e

theorem paid_receive (t : Tally) (sent : List Event) (d : Due) :
    paid t.receive sent d = paid t sent d := by
  cases d with
  | verdict v => cases v <;> rfl
  | sent e => rfl

theorem paid_count (t : Tally) (v : Verdict) (sent : List Event) (d : Due) :
    paid (t.count v) sent d = paid t sent d + [Due.verdict v].count d := by
  rw [List.count_singleton]
  cases d with
  | verdict w => simp [paid, Tally.of_count]
  | sent e => simp [paid]

theorem paid_append (t : Tally) (events sent : List Event) (d : Due) :
    paid t (events ++ sent) d = paid t sent d + (events.map Due.sent).count d := by
  cases d with
  | verdict v =>
    have hv : Due.verdict v ∉ events.map Due.sent := by simp
    rw [List.count_eq_zero_of_not_mem hv]
    rfl
  | sent e =>
    have he : (events.map Due.sent).count (.sent e) = events.count e := by
      rw [List.count, List.countP_map]
      exact List.countP_congr fun e' _ => by simp
    rw [he, paid, paid, List.count_append, Nat.add_comm]

section

variable {h : Handler} {accepts : Event → Bool} {p q : Progress} {t u : Tally}

theorem lineDues_of_blank {line : String} (hb : Text.allBlank line = true) :
    lineDues h accepts line = [] := if_pos hb

theorem lineDues_of_error {line : String} {problem : Problem}
    (hb : ¬ Text.allBlank line = true) (he : Event.read line = .error problem) :
    lineDues h accepts line = [.verdict .rejected] := by
  rw [lineDues, if_neg hb, he]

theorem lineDues_of_ok {line : String} {e : Event} (hb : ¬ Text.allBlank line = true)
    (he : Event.read line = .ok e) : lineDues h accepts line = eventDues h accepts e := by
  rw [lineDues, if_neg hb, he]

theorem event?_of_blank {line : String} (hb : Text.allBlank line = true) : event? line = none :=
  if_pos hb

theorem event?_of_error {line : String} {problem : Problem}
    (he : Event.read line = .error problem) : event? line = none := by
  rw [event?, he]
  exact ite_self _

theorem event?_of_ok {line : String} {e : Event} (hb : ¬ Text.allBlank line = true)
    (he : Event.read line = .ok e) : event? line = some e := by
  rw [event?, if_neg hb, he]
  rfl

theorem receivable_cons (line : String) (lines : List String) :
    receivable (line :: lines) =
      receivable lines + if Text.allBlank line = true then 0 else 1 := by
  rw [receivable, receivable, List.countP_cons]
  cases Text.allBlank line <;> rfl

end

end Adapter

end EventPipeline
