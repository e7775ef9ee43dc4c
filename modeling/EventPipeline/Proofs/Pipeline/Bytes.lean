import EventPipeline.Proofs.Pipeline.Steps
import EventPipeline.Proofs.Work.Sound

/-!
Runs over the bytes of trees. A phase makes bytes of a tree from bytes of a tree
(`Pipeline.apply_encode_yields`). Over the bytes of a tree that is read as it was written, a phase
is a run over the tree, and both phases are one run after the other: nobody notices that the tree
is written and read again in between, or that a phase without rules does neither
(`Pipeline.applyAll_run`).
-/

namespace EventPipeline

open Json
open Work (Yields)

namespace Pipeline

variable {t : Tree}

theorem apply_yields (event : String) (p : Pipeline) (data : ByteArray) (phase : Phase) :
    Yields (fun _ => True) (p.apply event data phase) := by
  rw [apply]
  split
  · exact .done trivial
  · split
    · exact .done trivial
    · next ht =>
      exact (p.applyTree_yields event phase (sound_of_decode ht).1).bind fun _ _ => .done trivial

/-- The bytes of a tree become those of another one, and stay as they are if the tree is too deep
to be read. -/
theorem apply_encode_yields (event : String) (p : Pipeline) (phase : Phase) (ht : t.Sound) :
    Yields (fun out => ∃ u : Tree, u.Sound ∧ out.data = encode u ∧ (nestingLimit < t.depth → u = t))
      (p.apply event (encode t) phase) := by
  rw [apply]
  split
  · exact .done ⟨t, ht, rfl, fun _ => rfl⟩
  · split
    · exact .done ⟨t, ht, rfl, fun _ => rfl⟩
    · next hr =>
      obtain ⟨hsound, -⟩ := sound_of_decode hr
      refine (p.applyTree_yields event phase hsound).bind fun result hresult => .done ?_
      refine ⟨result.1, hresult, rfl, fun hdeep => ?_⟩
      rw [decode_encode ht, if_neg (Nat.not_le.mpr hdeep)] at hr
      cases hr

/-- Over the bytes of a tree that is read as it was written, a run is one over the tree. -/
theorem apply_encode (event : String) (p : Pipeline) (phase : Phase) (ht : t.Sound)
    (hd : t.depth ≤ nestingLimit) (hshort : t.isShort = true) :
    p.apply event (encode t) phase =
      (p.applyTree event t phase).bind fun (t, errors) => .done ⟨encode t, Error.collect errors⟩ := by
  rw [apply]
  split
  · next hr =>
    rw [applyTree, List.isEmpty_iff.mp hr]
    rfl
  · rw [decode_encode ht, if_pos hd, Tree.reread_of_isShort hshort]

/-- Bytes that hold a tree are read by a phase that has rules. -/
theorem apply_of_decode {p : Pipeline} {phase : Phase} {data : ByteArray}
    (hr : (p.phaseRules phase).isEmpty = false) (ht : decode data = .ok t) (event : String) :
    p.apply event data phase =
      (p.applyTree event t phase).bind fun (t, errors) => .done ⟨encode t, Error.collect errors⟩ := by
  rw [apply, hr, ht]
  rfl

/-- A phase without rules has nothing to do. -/
theorem applyTree_of_isEmpty {p : Pipeline} {phase : Phase}
    (hr : (p.phaseRules phase).isEmpty = true) (event : String) (t : Tree) :
    p.applyTree event t phase = .done (t, []) := by
  rw [applyTree, List.isEmpty_iff.mp hr]
  rfl

/-- Every rule has its turn in one of the phases. -/
theorem phaseRules_main_of_init {p : Pipeline} (hp : p.isEmpty = false)
    (hr : (p.phaseRules .init).isEmpty = true) : (p.phaseRules .main).isEmpty = false := by
  obtain ⟨r, hmem⟩ := List.exists_mem_of_ne_nil _ (List.isEmpty_eq_false_iff.mp hp)
  have hinit : r ∉ p.phaseRules .init := List.isEmpty_iff.mp hr ▸ List.not_mem_nil
  refine List.isEmpty_eq_false_iff_exists_mem.mpr ⟨r, mem_phaseRules.mpr ⟨hmem, ?_⟩⟩
  cases hphase : r.phase with
  | init => exact absurd (mem_phaseRules.mpr ⟨hmem, hphase⟩) hinit
  | main => rfl

theorem leavesOf_errors (p : Pipeline) (event : String) (t : Tree) (phase : Phase) (s : Shared) :
    Error.leavesOf ((p.applyTree event t phase).run s).1.2 =
      ((p.applyTree event t phase).run s).1.2 :=
  Error.leavesOf_eq_self fun _ he => by
    obtain ⟨parse, fault, -, rfl⟩ := of_mem_errors he
    rfl

/--
Over bytes, both phases of a pipeline that has rules come to the bytes of the tree that they come
to one after the other, with the same variables, and with one error that is made of all of theirs.
The tree in between must not nest deeper than texts may, and all of its numbers must be read as they
were written, as integers are.
-/
theorem applyAll_run (p : Pipeline) (event : String) (s : Shared) {data : ByteArray} {t : Tree}
    (hp : p.isEmpty = false) (ht : decode data = .ok t) :
    let first := (p.applyTree event t .init).run s
    let second := (p.applyTree event first.1.1 .main).run first.2
    first.1.1.depth ≤ nestingLimit → first.1.1.isShort = true →
    ∃ error, (p.applyAll event data).run s = (⟨encode second.1.1, error⟩, second.2) ∧
      (error.map Error.leaves).getD [] = first.1.2 ++ second.1.2 ∧
      (error = none ↔ first.1.2 = [] ∧ second.1.2 = []) := by
  intro first second hd hshort
  let error := Error.collect
    ((Error.collect first.1.2).toList ++ (Error.collect second.1.2).toList)
  refine ⟨error, ?_, ?_, ?_⟩
  · by_cases hr : (p.phaseRules .init).isEmpty = true
    · -- The bytes are read by the second phase, and hold what the first one has left alone.
      have hfirst : first = ((t, []), s) := by
        simp only [first, applyTree_of_isEmpty hr, Work.run]
      have hskip : p.apply event data .init = .done ⟨data, none⟩ := if_pos hr
      simp only [error, second, hfirst, applyAll, hskip, Work.run_bind, Work.run,
        apply_of_decode (phaseRules_main_of_init hp hr) ht]
      rfl
    · have hsound : first.1.1.Sound := p.sound_of_run_init event (sound_of_decode ht).1 s
      have hfirst : (p.apply event data .init).run s =
          (⟨encode first.1.1, Error.collect first.1.2⟩, first.2) := by
        rw [apply_of_decode (Bool.eq_false_iff.mpr hr) ht, Work.run_bind]
        rfl
      have hsecond : (p.apply event (encode first.1.1) .main).run first.2 =
          (⟨encode second.1.1, Error.collect second.1.2⟩, second.2) := by
        rw [apply_encode event p .main hsound hd hshort, Work.run_bind]
        rfl
      rw [applyAll, Work.run_bind, hfirst, Work.run_bind, hsecond]
      rfl
  · rw [Error.leaves_collect, Error.leavesOf_append, Error.leavesOf_collect,
      Error.leavesOf_collect, leavesOf_errors, leavesOf_errors]
  · simp only [error, Error.collect_eq_none_iff, List.append_eq_nil_iff, Option.toList_eq_nil_iff]

/-- A text is parsed, kept and added, and a number that is no text cannot be parsed. -/
theorem applyAll_run_parsed :
    let p : Pipeline := ⟨[.add ⟨⟨[.key "c"]⟩, "$v"⟩, .parse ⟨⟨[.key "a"]⟩, .json⟩,
      .parse ⟨⟨[.key "b"]⟩, .json⟩, .store ⟨"$v", ⟨[.key "a"]⟩⟩]⟩
    let data := "\x7b \"b\": 2, \"a\": \"[true]\" \x7d".toUTF8
    let t := Tree.object [("a", .text "[true]"), ("b", .number (.integer ⟨2, by decide, by decide⟩))]
    let first := (p.applyTree "evt" t .init).run .fresh
    (p.isEmpty = false ∧ decode data = .ok t ∧ first.1.1.depth ≤ nestingLimit ∧
      first.1.1.isShort = true) ∧
    ∃ error left, (p.applyAll "evt" data).run .fresh =
        (⟨"\x7b\"a\":[true],\"b\":2,\"c\":[true]\x7d".toUTF8, some error⟩, left) ∧
      error.leaves.length = 1 := by
  intro p data t first
  have ht : decode data = .ok t := by decide +kernel
  have hd : first.1.1.depth ≤ nestingLimit := by decide +kernel
  have hshort : first.1.1.isShort = true := by decide +kernel
  let second := (p.applyTree "evt" first.1.1 .main).run first.2
  have htext : encode second.1.1 =
      "\x7b\"a\":[true],\"b\":2,\"c\":[true]\x7d".toUTF8 := by decide +kernel
  have hlength : (first.1.2 ++ second.1.2).length = 1 := by decide +kernel
  obtain ⟨error, hrun, hleaves, -⟩ := p.applyAll_run "evt" .fresh rfl ht hd hshort
  rw [← hleaves] at hlength
  cases error with
  | none => cases hlength
  | some error => exact ⟨⟨rfl, ht, hd, hshort⟩, error, second.2, htext ▸ hrun, hlength⟩

end Pipeline

end EventPipeline
