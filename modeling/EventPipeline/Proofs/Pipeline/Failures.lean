import EventPipeline.Proofs.Pipeline.Steps

/-!
Rules that fail leave no trace. A rule has its turn on what the rules before it leave; without
those that fail, a run comes to the same tree and the same variables, and has no errors
(`Pipeline.applyTree_kept`).
-/

namespace EventPipeline.Pipeline

section

variable (p : Pipeline) (event : String) (t : Tree) (phase : Phase) (s : Shared)

/-- The error of a rule on the tree and the variables that a pipeline leaves, if it fails there. -/
def errorBehind? (r : Rule) : Option Error :=
  let left := (p.applyTree event t phase).run s
  match ((r.transform event left.1.1).run left.2).1 with
  | .ok _ => none
  | .error e => some e

/-- The error of the rule at place `i` in a run of a phase, if it has a turn there and fails. -/
def failure? (i : Nat) : Option Error :=
  (p.rules[i]?).bind fun r =>
    if r.phase = phase then errorBehind? ⟨p.rules.take i⟩ event t phase s r else none

/-- The rules before place `i`, without those that fail. -/
def kept (i : Nat) : Pipeline :=
  ⟨((p.rules.take i).zipIdx.filter fun (_, j) => (p.failure? event t phase s j).isNone).map
    Prod.fst⟩

end

variable {p : Pipeline} {event : String} {t : Tree} {phase : Phase} {s : Shared} {i : Nat}
  {r : Rule}

theorem applyTree_append_of_ne (hr : r.phase ≠ phase) :
    applyTree ⟨p.rules ++ [r]⟩ event t phase = p.applyTree event t phase := by
  simp [applyTree, phaseRules, hr]

/-- The last rule has its turn on what the others leave. -/
theorem run_applyTree_append (hr : r.phase = phase) :
    (applyTree ⟨p.rules ++ [r]⟩ event t phase).run s =
      let left := (p.applyTree event t phase).run s
      let last := (applyRules event left.1.1 [r]).run left.2
      ((last.1.1, left.1.2 ++ last.1.2), last.2) := by
  have hphase : phaseRules ⟨p.rules ++ [r]⟩ phase = p.phaseRules phase ++ [r] := by
    simp [phaseRules, hr]
  rw [applyTree, hphase, run_applyRules_append]
  rfl

/-- A rule that fails changes nothing. -/
theorem run_of_errorBehind? {e : Error} (h : p.errorBehind? event t phase s r = some e) :
    let left := (p.applyTree event t phase).run s
    (applyRules event left.1.1 [r]).run left.2 = ((left.1.1, [e]), left.2) := by
  intro left
  rcases hrun : (r.transform event left.1.1).run left.2 with ⟨e' | next, s'⟩
  · rw [run_applyRules_error hrun, (Rule.of_run_error hrun).1]
    simp only [errorBehind?, left] at h hrun ⊢
    rw [hrun] at h
    rw [← Option.some.inj h]
    rfl
  · simp only [errorBehind?, left] at h hrun
    rw [hrun] at h
    cases h

/-- One that does not has no errors. -/
theorem errors_of_errorBehind? (h : p.errorBehind? event t phase s r = none) :
    let left := (p.applyTree event t phase).run s
    ((applyRules event left.1.1 [r]).run left.2).1.2 = [] := by
  intro left
  rcases hrun : (r.transform event left.1.1).run left.2 with ⟨e' | next, s'⟩
  · simp only [errorBehind?, left] at h hrun
    rw [hrun] at h
    cases h
  · rw [run_applyRules_ok hrun]
    rfl

theorem take_succ_of_some (hr : p.rules[i]? = some r) :
    p.rules.take (i + 1) = p.rules.take i ++ [r] := by
  rw [List.take_add_one, hr, Option.toList_some]

theorem kept_succ (hr : p.rules[i]? = some r) :
    p.kept event t phase s (i + 1) =
      ⟨(p.kept event t phase s i).rules ++
        if (p.failure? event t phase s i).isNone then [r] else []⟩ := by
  have hlength : (p.rules.take i).length = i :=
    List.length_take_of_le (List.getElem?_eq_some_iff.mp hr).1.le
  rw [kept, take_succ_of_some hr, List.zipIdx_append, List.filter_append, List.map_append, hlength]
  cases h : p.failure? event t phase s i <;> simp [h, kept]

theorem failure?_of_some (hr : p.rules[i]? = some r) (hphase : r.phase = phase) :
    p.failure? event t phase s i = errorBehind? ⟨p.rules.take i⟩ event t phase s r := by
  rw [failure?, hr, Option.bind_some, if_pos hphase]

/-- The rules before a place, and those of them that do not fail, leave the same tree and the same
variables. -/
theorem run_kept (p : Pipeline) (event : String) (t : Tree) (phase : Phase) (s : Shared) (i : Nat) :
    let run := (applyTree ⟨p.rules.take i⟩ event t phase).run s
    ((p.kept event t phase s i).applyTree event t phase).run s = ((run.1.1, []), run.2) ∧
      run.1.2 = (List.range i).filterMap (p.failure? event t phase s) := by
  induction i with
  | zero => exact ⟨rfl, rfl⟩
  | succ i ih =>
    obtain ⟨hkept, herrors⟩ := ih
    rw [List.range_succ, List.filterMap_append]
    cases hr : p.rules[i]? with
    | none =>
      have htake : p.rules.take (i + 1) = p.rules.take i := by
        rw [List.take_add_one, hr, Option.toList_none, List.append_nil]
      have hnone : p.failure? event t phase s i = none := by rw [failure?, hr, Option.bind_none]
      have hsame : p.kept event t phase s (i + 1) = p.kept event t phase s i := by
        rw [kept, htake, kept]
      rw [htake, hsame, List.filterMap_cons_none hnone, List.filterMap_nil, List.append_nil]
      exact ⟨hkept, herrors⟩
    | some r =>
      rw [take_succ_of_some hr, kept_succ hr]
      by_cases hphase : r.phase = phase
      · have hfailure : p.failure? event t phase s i =
            errorBehind? ⟨p.rules.take i⟩ event t phase s r := failure?_of_some hr hphase
        rw [run_applyTree_append hphase]
        dsimp only
        cases herror : errorBehind? ⟨p.rules.take i⟩ event t phase s r with
        | some e =>
          rw [herror] at hfailure
          rw [run_of_errorBehind? herror, hfailure, Option.isNone_some, if_neg Bool.false_ne_true,
            List.append_nil, List.filterMap_cons_some hfailure, List.filterMap_nil, ← herrors]
          exact ⟨hkept, rfl⟩
        | none =>
          rw [herror] at hfailure
          rw [hfailure, Option.isNone_none, if_pos rfl, run_applyTree_append hphase, hkept,
            List.filterMap_cons_none hfailure, List.filterMap_nil, ← herrors]
          simp only [errors_of_errorBehind? herror, List.append_nil, and_self]
      · have hnone : p.failure? event t phase s i = none := by
          rw [failure?, hr, Option.bind_some, if_neg hphase]
        rw [applyTree_append_of_ne hphase, hnone, Option.isNone_none, if_pos rfl,
          applyTree_append_of_ne hphase, List.filterMap_cons_none hnone, List.filterMap_nil,
          List.append_nil]
        exact ⟨hkept, herrors⟩

/--
Without the rules that fail in a run, a pipeline comes to the same tree and the same variables, and
has no errors. The errors of the run are those of these rules, in their order, each on the tree and
the variables that the rules before it leave that do not fail.
-/
theorem applyTree_kept (p : Pipeline) (event : String) (t : Tree) (phase : Phase) (s : Shared) :
    let run := (p.applyTree event t phase).run s
    ((p.kept event t phase s p.length).applyTree event t phase).run s = ((run.1.1, []), run.2) ∧
    run.1.2 = (List.range p.length).filterMap (p.failure? event t phase s) ∧
    ∀ i r, p.rules[i]? = some r → r.phase = phase →
      p.failure? event t phase s i = (p.kept event t phase s i).errorBehind? event t phase s r := by
  obtain ⟨hkept, herrors⟩ := p.run_kept event t phase s p.length
  rw [length, List.take_length] at hkept herrors
  refine ⟨hkept, herrors, fun i r hr hphase => ?_⟩
  rw [failure?_of_some hr hphase, errorBehind?, errorBehind?, (p.run_kept event t phase s i).1]

/-- The same rule twice: what it reads out of a text the first time cannot be read once more. -/
theorem applyTree_kept_twice :
    let parse (name : String) : Rule := .parse ⟨⟨[.key name]⟩, .json⟩
    let store : Rule := .store ⟨"$v", ⟨[.key "a"]⟩⟩
    let p : Pipeline := ⟨[parse "a", parse "a", store, parse "b"]⟩
    let t := Tree.object [("a", .text "\"x\""), ("b", .null)]
    let run := (p.applyTree "evt" t .init).run .fresh
    (applyTree ⟨[parse "a", store]⟩ "evt" t .init).run .fresh = ((run.1.1, []), run.2) ∧
    run.1.1 = .object [("a", .text "x"), ("b", .null)] ∧
    p.rules[1]? = some (parse "a") ∧
    (p.failure? "evt" t .init .fresh 1).isSome ∧
    p.failure? "evt" t .init .fresh 1 =
      errorBehind? ⟨[parse "a"]⟩ "evt" t .init .fresh (parse "a") := by
  intro parse store p t run
  obtain ⟨hrun, -, hplace⟩ := p.applyTree_kept "evt" t .init .fresh
  have hkept : p.kept "evt" t .init .fresh p.length = ⟨[parse "a", store]⟩ := by decide +kernel
  have hfirst : p.kept "evt" t .init .fresh 1 = ⟨[parse "a"]⟩ := by decide +kernel
  exact ⟨hkept ▸ hrun, by decide +kernel, rfl, by decide +kernel,
    hfirst ▸ hplace 1 (parse "a") rfl rfl⟩

end EventPipeline.Pipeline
