import EventPipeline.Work

/-!
Work confined to the variables of one event. Such work finds out about nothing else: what it comes
to is determined by these variables (`Work.ending`), whatever the storage holds for other events,
and it leaves those as they are (`Confined.run`). Works that differ in the event's name only
(`Work.Alike`) come to the same end.
-/

namespace EventPipeline

/-- The request is for the variables of the event. -/
def Request.IsFor (event : String) : Request → Prop
  | .ticket => False
  | .get e _ | .keys e | .set e _ _ | .flush e => e = event

/-- Answers a request from the variables of a single event. Alone, the first ticket is drawn. -/
def Request.serve : (request : Request) → Keyed Tree → request.Answer × Keyed Tree
  | .ticket, vars => (0, vars)
  | .get _ name, vars => (Keyed.get? name vars, vars)
  | .keys _, vars => (Keyed.keys vars, vars)
  | .set _ name value, vars => ((), Keyed.insert name value vars)
  | .flush _, _ => ((), [])

/-- Nothing but the variables of the event may differ. -/
structure Shared.SameBeside (event : String) (s s' : Shared) : Prop where
  nextTicket : s'.nextTicket = s.nextTicket
  variablesOf : ∀ other, other ≠ event →
    s'.storage.variablesOf other = s.storage.variablesOf other

namespace Shared.SameBeside

variable {event : String} {s s' s'' : Shared}

theorem refl (event : String) (s : Shared) : SameBeside event s s := ⟨rfl, fun _ _ => rfl⟩

theorem trans (h : SameBeside event s s') (h' : SameBeside event s' s'') :
    SameBeside event s s'' :=
  ⟨h'.nextTicket.trans h.nextTicket,
    fun other ho => (h'.variablesOf other ho).trans (h.variablesOf other ho)⟩

end Shared.SameBeside

/-- A request for the variables of an event is answered from these, and changes no others. -/
theorem Request.IsFor.answer {event : String} {request : Request} (h : request.IsFor event)
    (s : Shared) :
    (s.answer request).1 = (request.serve (s.storage.variablesOf event)).1 ∧
      (s.answer request).2.storage.variablesOf event =
        (request.serve (s.storage.variablesOf event)).2 ∧
      Shared.SameBeside event s (s.answer request).2 := by
  cases request with
  | ticket => exact h.elim
  | get e name => cases h; exact ⟨rfl, rfl, .refl _ _⟩
  | keys e => cases h; exact ⟨rfl, rfl, .refl _ _⟩
  | set e name value =>
    cases h
    exact ⟨rfl, Storage.variablesOf_set_self _ _ _ _, rfl,
      fun other ho => Storage.variablesOf_set_of_ne _ ho _ _⟩
  | flush e =>
    cases h
    exact ⟨rfl, Storage.variablesOf_flush_self _ _, rfl,
      fun other ho => Storage.variablesOf_flush_of_ne _ ho⟩

namespace Work

variable {α β : Type} {event : String}

/-- What work comes to. -/
structure Ending (α : Type) where
  result : α
  /-- The variables that are left. -/
  left : Keyed Tree
  /-- How many requests are answered on the way. -/
  turns : Nat

/-- What work comes to when it is given the variables of a single event. -/
def ending : Work α → Keyed Tree → Ending α
  | .done a, vars => ⟨a, vars, 0⟩
  | .ask request resume, vars =>
    let (answer, vars) := request.serve vars
    let e := (resume answer).ending vars
    ⟨e.result, e.left, e.turns + 1⟩

/-- The work asks for nothing but the variables of the event. -/
inductive Confined (event : String) : Work α → Prop where
  | done (a : α) : Confined event (.done a)
  | ask {request : Request} {resume : request.Answer → Work α} :
    request.IsFor event → (∀ answer, Confined event (resume answer)) →
      Confined event (.ask request resume)

theorem confined_ask_iff {request : Request} {resume : request.Answer → Work α} :
    Confined event (.ask request resume) ↔
      request.IsFor event ∧ ∀ answer, Confined event (resume answer) :=
  ⟨fun | .ask hr hw => ⟨hr, hw⟩, fun h => .ask h.1 h.2⟩

/-- A request takes one of the turns, and nothing else of what the work comes to. -/
theorem ending_of_ask {request : Request} {resume : request.Answer → Work α} {vars : Keyed Tree}
    {e : Ending α} (h : (Work.ask request resume).ending vars = e) :
    ∃ turns, e.turns = turns + 1 ∧
      (resume (request.serve vars).1).ending (request.serve vars).2 = { e with turns } := by
  subst h
  exact ⟨_, rfl, rfl⟩

theorem eq_done_of_turns {work : Work α} {vars : Keyed Tree} (h : (work.ending vars).turns = 0) :
    work = .done (work.ending vars).result := by
  cases work with
  | done a => rfl
  | ask request resume => exact absurd h (Nat.succ_ne_zero _)

theorem ending_bind (work : Work α) (f : α → Work β) (vars : Keyed Tree) :
    (work.bind f).ending vars =
      let e := work.ending vars
      let e' := (f e.result).ending e.left
      ⟨e'.result, e'.left, e.turns + e'.turns⟩ := by
  induction work generalizing vars with
  | done a => simp only [bind, ending, Nat.zero_add]
  | ask request resume ih =>
    simp only [bind, ending, ih]
    rw [Nat.add_right_comm]

theorem Confined.run {work : Work α} (h : Confined event work) (s : Shared) :
    (work.run s).1 = (work.ending (s.storage.variablesOf event)).result ∧
      (work.run s).2.storage.variablesOf event =
        (work.ending (s.storage.variablesOf event)).left ∧
      Shared.SameBeside event s (work.run s).2 := by
  induction h generalizing s with
  | done a => exact ⟨rfl, rfl, .refl _ _⟩
  | @ask request resume hr _ ih =>
    obtain ⟨h₁, h₂, h₃⟩ := hr.answer s
    obtain ⟨i₁, i₂, i₃⟩ := ih (s.answer request).1 (s.answer request).2
    rw [h₁, h₂] at i₁ i₂
    rw [h₁] at i₃
    simp only [Work.run, ending, h₁]
    exact ⟨i₁, i₂, h₃.trans i₃⟩

/--
The second work is the first, asking for the variables of `b` where that asks for those of `a`.
-/
inductive Alike (a b : String) : Work α → Work α → Prop where
  | done (result : α) : Alike a b (.done result) (.done result)
  | get (name : String) {f g : Option Tree → Work α} :
    (∀ value, Alike a b (f value) (g value)) → Alike a b (.ask (.get a name) f) (.ask (.get b name) g)
  | keys {f g : List String → Work α} :
    (∀ names, Alike a b (f names) (g names)) → Alike a b (.ask (.keys a) f) (.ask (.keys b) g)
  | set (name : String) (value : Tree) {f g : Unit → Work α} :
    Alike a b (f ()) (g ()) → Alike a b (.ask (.set a name value) f) (.ask (.set b name value) g)
  | flush {f g : Unit → Work α} :
    Alike a b (f ()) (g ()) → Alike a b (.ask (.flush a) f) (.ask (.flush b) g)

namespace Alike

variable {a b : String} {w w' : Work α}

theorem bind {f g : α → Work β} (h : Alike a b w w') (hf : ∀ x, Alike a b (f x) (g x)) :
    Alike a b (w.bind f) (w'.bind g) := by
  induction h with
  | done x => exact hf x
  | get name _ ih => exact .get name ih
  | keys _ ih => exact .keys ih
  | set name value _ ih => exact .set name value ih
  | flush _ ih => exact .flush ih

theorem confined (h : Alike a b w w') : Confined a w := by
  induction h with
  | done x => exact .done x
  | get name _ ih => exact .ask rfl ih
  | keys _ ih => exact .ask rfl ih
  | set name value _ ih => exact .ask rfl fun _ => ih
  | flush _ ih => exact .ask rfl fun _ => ih

/-- The name of the event makes no difference. -/
theorem ending_eq (h : Alike a b w w') (vars : Keyed Tree) : w.ending vars = w'.ending vars := by
  induction h generalizing vars with
  | done x => rfl
  | get name _ ih => simp only [ending, Request.serve, ih]
  | keys _ ih => simp only [ending, Request.serve, ih]
  | set name value _ ih => simp only [ending, Request.serve, ih]
  | flush _ ih => simp only [ending, Request.serve, ih]

end Alike

end Work

end EventPipeline
