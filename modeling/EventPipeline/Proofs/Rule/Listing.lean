import EventPipeline.Proofs.Pipeline.Locality
import EventPipeline.Proofs.Rule.Composition
import EventPipeline.Proofs.Storage.Trace

/-!
The order in which a storage lists the names of variables. It may be any order, and another one at
every request: work that is `Work.OrderFree` ends as if the names were listed in their own order
(`Work.OrderFree.mayEnd_iff`). An add sorts the names by a total order before it fills in their
variables (`Add.mergeSort_eq_of_perm`), so what it writes depends on the variables alone
(`Add.compose_listed`).
-/

namespace EventPipeline

/-- Answers that say the same: names may be listed in any order. -/
def Request.Alike : (request : Request) → request.Answer → request.Answer → Prop
  | .keys _, names, names' => names.Perm names'
  | _, answer, answer' => answer = answer'

theorem Request.Alike.refl (request : Request) (answer : request.Answer) :
    request.Alike answer answer := by
  cases request with
  | keys event => exact List.Perm.refl answer
  | _ => rfl

namespace Work

variable {α β : Type} {work : Work α}

/-- How work may end, and what it may leave behind, when names are listed in any order. -/
def MayEnd : Work α → Shared → α × Shared → Prop
  | .done a, s, out => out = (a, s)
  | .ask request resume, s, out =>
    ∃ answer, request.Alike (s.answer request).1 answer ∧
      (resume answer).MayEnd (s.answer request).2 out

/-- The work goes on in the same way in whatever order names are listed. -/
inductive OrderFree : Work α → Prop where
  | done (a : α) : OrderFree (.done a)
  | ask {request : Request} {resume : request.Answer → Work α} :
    (∀ answer answer', request.Alike answer answer' → resume answer = resume answer') →
      (∀ answer, OrderFree (resume answer)) → OrderFree (.ask request resume)

namespace OrderFree

theorem bind (h : OrderFree work) {f : α → Work β} (hf : ∀ a, OrderFree (f a)) :
    OrderFree (work.bind f) := by
  induction h with
  | done a => exact hf a
  | ask hresume _ ih =>
    exact .ask (fun answer answer' h => congrArg (·.bind f) (hresume answer answer' h)) ih

/-- Work for which the order makes no difference ends in one way only. -/
theorem mayEnd_iff (h : OrderFree work) {s : Shared} {out : α × Shared} :
    work.MayEnd s out ↔ out = work.run s := by
  induction h generalizing s with
  | done a => exact Iff.rfl
  | @ask request resume hresume _ ih =>
    constructor
    · rintro ⟨answer, hanswer, hout⟩
      rw [← hresume _ answer hanswer] at hout
      exact (ih _).mp hout
    · intro hout
      exact ⟨_, .refl _ _, (ih _).mpr hout⟩

end OrderFree

end Work

open Work (OrderFree)

theorem resolve_orderFree (event name : String) : OrderFree (resolve event name) := by
  unfold resolve
  split
  · exact .done _
  · refine .ask (fun value value' h => ?_) fun value => .done _
    cases h
    rfl

/-- After any actions a storage answers from the changes that these come to. -/
theorem Storage.follows_of_actions (actions : List Action) :
    (Session.start.play actions).storage.Follows (changes [] actions) := by
  rw [Session.storage_play]
  exact follows_of_changes _

namespace Add

variable {a b c : String} {names names' : List String}

theorem fillsBefore_iff : fillsBefore a b = true ↔
    b.utf8ByteSize < a.utf8ByteSize ∨ a.utf8ByteSize = b.utf8ByteSize ∧ a ≤ b := by
  simp only [fillsBefore, Bool.or_eq_true, Bool.and_eq_true, decide_eq_true_eq, beq_iff_eq]

theorem fillsBefore_trans (hab : fillsBefore a b = true) (hbc : fillsBefore b c = true) :
    fillsBefore a c = true := by
  rw [fillsBefore_iff] at *
  rcases hab with hab | ⟨hab, hle⟩ <;> rcases hbc with hbc | ⟨hbc, hle'⟩
  · exact .inl (Nat.lt_trans hbc hab)
  · exact .inl (hbc ▸ hab)
  · exact .inl (hab ▸ hbc)
  · exact .inr ⟨hab.trans hbc, String.le_trans hle hle'⟩

theorem fillsBefore_total (a b : String) : (fillsBefore a b || fillsBefore b a) = true := by
  rw [Bool.or_eq_true, fillsBefore_iff, fillsBefore_iff]
  rcases Nat.lt_trichotomy a.utf8ByteSize b.utf8ByteSize with hlt | heq | hgt
  · exact .inr (.inl hlt)
  · exact (String.le_total a b).imp (fun hle => .inr ⟨heq, hle⟩) fun hle => .inr ⟨heq.symm, hle⟩
  · exact .inl (.inl hgt)

/-- Of two names one is filled in before the other, unless they are the same. -/
theorem fillsBefore_antisymm (hab : fillsBefore a b = true) (hba : fillsBefore b a = true) :
    a = b := by
  rw [fillsBefore_iff] at hab hba
  have hle : a ≤ b := by
    rcases hab with hab | ⟨-, hle⟩
    · omega
    · exact hle
  have hge : b ≤ a := by
    rcases hba with hba | ⟨-, hge⟩
    · omega
    · exact hge
  exact String.le_antisymm hle hge

/-- In whatever order names are listed, their variables are filled in in one order. -/
theorem mergeSort_eq_of_perm (h : names.Perm names') :
    names.mergeSort fillsBefore = names'.mergeSort fillsBefore := by
  have hsorted (names : List String) :
      (names.mergeSort fillsBefore).Pairwise fun a b => fillsBefore a b = true :=
    @List.pairwise_mergeSort _ fillsBefore (fun _ _ _ => fillsBefore_trans) fillsBefore_total names
  have hperm : (names.mergeSort fillsBefore).Perm (names'.mergeSort fillsBefore) :=
    (List.mergeSort_perm _ _).trans (h.trans (List.mergeSort_perm _ _).symm)
  exact hperm.eq_of_pairwise (fun _ _ _ _ => fillsBefore_antisymm) (hsorted names) (hsorted names')

theorem resolveAll_orderFree (event : String) (names : List String) :
    OrderFree (resolveAll event names) := by
  induction names with
  | nil => exact .done _
  | cons name names ih =>
    exact (resolve_orderFree event name).bind fun _ => ih.bind fun _ => .done _

theorem compose_orderFree (add : Add) (event : String) : OrderFree (add.compose event) := by
  refine .ask (fun names names' h => ?_) fun names => ?_
  · rw [mergeSort_eq_of_perm h]
  · exact (resolveAll_orderFree event _).bind fun _ => .done _

/-- The variables of an event are filled in as they are, whatever else a storage holds. -/
theorem variablesFor_congr {event : String} {s s' : Shared}
    (h : ∀ name, s'.storage.get? event name = s.storage.get? event name) :
    variablesFor event s' = variablesFor event s := by
  have hkeys : s'.storage.keys event = s.storage.keys event :=
    congrArg Keyed.keys (Storage.variablesOf_eq_of_get?_eq h)
  have hlookup (name : String) : s'.lookup? event name = s.lookup? event name := by
    rw [Shared.lookup?, Shared.lookup?, h name]
  simp only [variablesFor, hkeys, hlookup]

/--
What an add composes is decided by the variables of its event, for each name the one value that it
was set to last. It is the same in whatever order the storage lists their names, for every storage
with the same variables, and so after all changes that leave these.
-/
theorem compose_listed (add : Add) (event : String) :
    (∀ s s' : Shared, (∀ name, s'.storage.get? event name = s.storage.get? event name) →
      ∀ out, (add.compose event).MayEnd s' out ↔ out = (((add.compose event).run s).1, s')) ∧
    ∀ actions actions' : List Storage.Action,
      (∀ name value, Storage.LastSet (Storage.changes [] actions') event name value ↔
        Storage.LastSet (Storage.changes [] actions) event name value) →
      ∀ ticket ticket' : UInt64,
        let s : Shared := ⟨ticket, (Storage.Session.start.play actions).storage⟩
        let s' : Shared := ⟨ticket', (Storage.Session.start.play actions').storage⟩
        ∀ out, (add.compose event).MayEnd s' out ↔
          out = (((add.compose event).run s).1, s') := by
  have hsame (s s' : Shared)
      (h : ∀ name, s'.storage.get? event name = s.storage.get? event name) (out : Tree × Shared) :
      (add.compose event).MayEnd s' out ↔ out = (((add.compose event).run s).1, s') := by
    rw [(add.compose_orderFree event).mayEnd_iff, run_compose, run_compose, variablesFor_congr h]
  refine ⟨hsame, fun actions actions' hlast ticket ticket' => ?_⟩
  intro s s'
  apply hsame
  intro name
  apply Option.ext
  intro value
  rw [(Storage.follows_of_actions actions').get?_iff, (Storage.follows_of_actions actions).get?_iff,
    hlast]

/-- Two names of one length, each in the value of the other, and both at the start of a third. One
storage has let the event go in between, and sets the same variables from the last to the first. -/
theorem compose_listed_overlapping :
    let add : Add := ⟨.root, "$a$b$ab"⟩
    let actions : List Storage.Action := [.set "evt" "$a" (.text "$b"),
      .set "evt" "$b" (.text "$a"), .set "evt" "$ab" (.text "($a)")]
    let actions' : List Storage.Action := [.enter "evt", .set "evt" "$c" .null, .leave 0,
      .set "evt" "$ab" (.text "($a)"), .set "evt" "$b" .null, .set "other" "$a" .null,
      .set "evt" "$b" (.text "$a"), .set "evt" "$a" (.text "$b")]
    let s : Shared := ⟨0, (Storage.Session.start.play actions).storage⟩
    let s' : Shared := ⟨7, (Storage.Session.start.play actions').storage⟩
    ((∀ name, s'.storage.get? "evt" name = s.storage.get? "evt" name) ∧
      ∀ name value, Storage.LastSet (Storage.changes [] actions') "evt" name value ↔
        Storage.LastSet (Storage.changes [] actions) "evt" name value) ∧
    (∀ out, (add.compose "evt").MayEnd s out ↔ out = (.text "$a$a$a", s)) ∧
    ∀ out, (add.compose "evt").MayEnd s' out ↔ out = (.text "$a$a$a", s') := by
  intro add actions actions' s s'
  have hvariables : s'.storage.variablesOf "evt" = s.storage.variablesOf "evt" := by decide +kernel
  have hget (name : String) : s'.storage.get? "evt" name = s.storage.get? "evt" name :=
    congrArg (Keyed.get? name) hvariables
  have hlast (name : String) (value : Tree) :
      Storage.LastSet (Storage.changes [] actions') "evt" name value ↔
        Storage.LastSet (Storage.changes [] actions) "evt" name value := by
    rw [← (Storage.follows_of_actions actions').get?_iff,
      ← (Storage.follows_of_actions actions).get?_iff]
    exact Eq.congr_left (hget name)
  have hsorted : (s.storage.keys "evt").mergeSort fillsBefore = ["$ab", "$a", "$b"] := by
    have hlisted : (s.storage.keys "evt").Perm ["$ab", "$a", "$b"] := by decide +kernel
    rw [mergeSort_eq_of_perm hlisted]
    exact List.mergeSort_of_pairwise (by decide +kernel)
  have hvalue : ((add.compose "evt").run s).1 = .text "$a$a$a" := by
    rw [run_compose, variablesFor, hsorted]
    decide +kernel
  obtain ⟨hstorages, hactions⟩ := add.compose_listed "evt"
  refine ⟨⟨hget, hlast⟩, fun out => ?_, fun out => ?_⟩
  · rw [hstorages s s (fun _ => rfl), hvalue]
  · rw [hactions actions actions' hlast 0 7, hvalue]

end Add

end EventPipeline
