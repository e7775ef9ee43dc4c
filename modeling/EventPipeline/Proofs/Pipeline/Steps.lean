import EventPipeline.Proofs.Tree.Sound
import EventPipeline.Pipeline

/-!
A run of rules, step by step. A step that fails is a text that cannot be read; it passes on what it
was given, and its error comes before those of the steps behind it.
-/

namespace EventPipeline

/-- A text that cannot be read is an error of its own rule. -/
theorem Parse.of_transform_error {p : Parse} {t : Tree} {e : Error} (h : p.transform t = .error e) :
    ∃ fault, e = p.fail fault := by
  rw [transform] at h
  split at h
  · cases h
  · next slot _ =>
    have hr : p.replacement slot.node = .error e := by
      cases hr : p.replacement slot.node with
      | error e' =>
        rw [hr] at h
        exact h
      | ok new =>
        rw [hr] at h
        cases h
    unfold replacement at hr
    split at hr
    · split at hr
      · cases hr
      · exact ⟨_, (Except.error.inj hr).symm⟩
    · exact ⟨_, (Except.error.inj hr).symm⟩

namespace Rule

variable {r : Rule} {event : String} {t : Tree} {s s' : Shared}

/-- Only a parse fails, and it changes nothing. -/
theorem of_run_error {e : Error} (h : (r.transform event t).run s = (.error e, s')) :
    s' = s ∧ ∃ p fault, r = .parse p ∧ e = p.fail fault := by
  cases r with
  | parse p =>
    obtain ⟨hp, hs⟩ := Prod.mk.inj h
    obtain ⟨fault, hfault⟩ := Parse.of_transform_error hp
    exact ⟨hs.symm, p, fault, rfl, hfault⟩
  | _ =>
    rw [transform, Work.run_bind] at h
    cases h

/-- Whatever the variables are, the rules of the first phase make sound trees of sound trees. -/
theorem sound_of_run_init (hr : r.phase = .init) (ht : t.Sound) {next : Tree}
    (h : ((r.transform event t).run s).1 = .ok next) : next.Sound := by
  cases r with
  | store st => exact Except.ok.inj h ▸ ht
  | parse p => exact ht.parse h
  | _ => cases hr

end Rule

namespace Pipeline

variable {event : String} {r : Rule} {rules : List Rule} {t next : Tree} {s s' : Shared}

theorem run_applyRules_ok (h : (r.transform event t).run s = (.ok next, s')) :
    (applyRules event t (r :: rules)).run s = (applyRules event next rules).run s' := by
  rw [applyRules, Work.run_bind, h]

theorem run_applyRules_error {e : Error} (h : (r.transform event t).run s = (.error e, s')) :
    (applyRules event t (r :: rules)).run s =
      let rest := (applyRules event t rules).run s'
      ((rest.1.1, e :: rest.1.2), rest.2) := by
  rw [applyRules, Work.run_bind, h]
  simp only [Work.run_bind]
  rfl

/-- A run of some rules, and then of others. -/
theorem run_applyRules_append (others : List Rule) :
    (applyRules event t (rules ++ others)).run s =
      let first := (applyRules event t rules).run s
      let second := (applyRules event first.1.1 others).run first.2
      ((second.1.1, first.1.2 ++ second.1.2), second.2) := by
  induction rules generalizing t s with
  | nil => rfl
  | cons r rules ih =>
    rw [List.cons_append]
    rcases hrun : (r.transform event t).run s with ⟨e | next, s'⟩
    · rw [run_applyRules_error hrun, run_applyRules_error hrun, ih]
      rfl
    · rw [run_applyRules_ok hrun, run_applyRules_ok hrun, ih]

/-- The errors of a run are those of texts that its rules could not read. -/
theorem of_mem_errors {e : Error} (he : e ∈ ((applyRules event t rules).run s).1.2) :
    ∃ p fault, .parse p ∈ rules ∧ e = p.fail fault := by
  induction rules generalizing t s with
  | nil => cases he
  | cons r rules ih =>
    rcases hrun : (r.transform event t).run s with ⟨e' | next, s'⟩
    · rw [run_applyRules_error hrun] at he
      rcases List.mem_cons.mp he with rfl | he
      · obtain ⟨-, p, fault, rfl, hfault⟩ := Rule.of_run_error hrun
        exact ⟨p, fault, List.mem_cons_self, hfault⟩
      · obtain ⟨p, fault, hp, hfault⟩ := ih he
        exact ⟨p, fault, List.mem_cons_of_mem _ hp, hfault⟩
    · rw [run_applyRules_ok hrun] at he
      obtain ⟨p, fault, hp, hfault⟩ := ih he
      exact ⟨p, fault, List.mem_cons_of_mem _ hp, hfault⟩

theorem sound_of_run_init (p : Pipeline) (event : String) (ht : t.Sound) (s : Shared) :
    ((p.applyTree event t .init).run s).1.1.Sound := by
  have hinit : ∀ r ∈ p.phaseRules .init, r.phase = .init := fun _ hr => (mem_phaseRules.mp hr).2
  rw [applyTree]
  generalize p.phaseRules .init = rules at hinit
  induction rules generalizing t s with
  | nil => exact ht
  | cons r rules ih =>
    have hrest : ∀ r ∈ rules, r.phase = .init := fun r hr => hinit r (List.mem_cons_of_mem _ hr)
    rcases hrun : (r.transform event t).run s with ⟨e | next, s'⟩
    · rw [run_applyRules_error hrun]
      exact ih ht s' hrest
    · rw [run_applyRules_ok hrun]
      have hnext : ((r.transform event t).run s).1 = .ok next := congrArg Prod.fst hrun
      exact ih (Rule.sound_of_run_init (hinit r List.mem_cons_self) ht hnext) s' hrest

end Pipeline

end EventPipeline
