import EventPipeline.Proofs.Pipeline.Configuration
import EventPipeline.Proofs.Pipeline.Steps
import EventPipeline.Proofs.Tree.Longest
import EventPipeline.Text.Count

/-!
How long arrays can become. A pipeline that could be built writes at indices that may be written to
only, so that every array it makes has at most `Path.largestIndex + 1` slots, and no other array
becomes longer than those that it is made of (`Pipeline.applyTree_longest_le`).
-/

namespace EventPipeline

open EventPipeline.Path (Step)

/-- The length of the longest array in the variables of an event. -/
def Storage.longest (s : Storage) (event : String) : Nat :=
  Tree.membersLongest (s.variablesOf event)

theorem Storage.longest_get?_le {s : Storage} {event name : String} {t : Tree} {n : Nat}
    (hs : s.longest event ≤ n) (h : s.get? event name = some t) : t.longest ≤ n :=
  Tree.membersLongest_le_iff.mp hs _ (Keyed.mem_of_get? h)

namespace Tree

/-- Encodes a value slot by slot: an array of null slots is made, and its last one is written to.
Fails if the number of slots is no count, or the slot is not there. -/
def encode? (steps : List Step) (value : Tree) : Option Tree :=
  steps.foldr
    (fun step inner? => inner?.bind fun inner =>
      match step with
      | .key name => some (.object [(name, inner)])
      | .index i =>
        let slots := List.replicate (i + 1) Tree.null
        if i + 1 < Text.countLimit ∧ i < slots.length then some (.array (slots.set i inner))
        else none)
    (some value)

theorem set_replicate_succ (i : Nat) (x y : Tree) :
    (List.replicate (i + 1) x).set i y = List.replicate i x ++ [y] := by
  rw [List.replicate_succ', List.set_append_right i y List.length_replicate.le,
    List.length_replicate, Nat.sub_self, List.set_cons_zero]

/-- No slot is missed as long as the numbers of slots are counts. -/
theorem encode?_eq_some {steps : List Step} (h : ∀ i, .index i ∈ steps → i + 1 < Text.countLimit)
    (value : Tree) : encode? steps value = some (encode steps value) := by
  induction steps with
  | nil => rfl
  | cons step steps ih =>
    have hinner := ih fun i hi => h i (List.mem_cons_of_mem _ hi)
    rw [encode?] at hinner ⊢
    rw [List.foldr_cons, hinner, Option.bind_some]
    cases step with
    | key name => rfl
    | index i =>
      dsimp only
      have hcount := h i List.mem_cons_self
      have hslot : i < (List.replicate (i + 1) Tree.null).length := by
        rw [List.length_replicate]
        exact Nat.lt_succ_self i
      rw [if_pos ⟨hcount, hslot⟩, set_replicate_succ, encode_index]

end Tree

/-- To prune makes no array longer. -/
theorem Delete.Selection.longest_prune_le (c : Selection) {trail : String} {t kept : Tree} {n : Nat}
    (h : c.prune trail t = some kept) (ht : t.longest ≤ n) : kept.longest ≤ n := by
  refine prune_induct (R := fun t x => t.longest ≤ n → x.longest ≤ n) (fun _ _ h => h) ?_ ?_ h ht
  · intro items left hlength hleft h
    obtain ⟨hlength', hitems⟩ := Tree.longest_array_le_iff.mp h
    refine Tree.longest_array_le_iff.mpr ⟨hlength.trans hlength', fun x hx => ?_⟩
    obtain ⟨t, ht, hle⟩ := hleft x hx
    exact hle (hitems t ht)
  · intro members left _ hleft h
    refine Tree.longest_object_le_iff.mpr fun e he => ?_
    obtain ⟨m, hm, hle⟩ := hleft e he
    exact hle (Tree.longest_object_le_iff.mp h m hm)

/-- The slots that are made for a path that may be written to. -/
theorem Path.slots_le {p : Path} (h : p.excess? = none) {i : Nat} (hi : .index i ∈ p.steps) :
    i + 1 ≤ 65536 :=
  Nat.succ_le_succ (excess?_eq_none_iff.mp h i hi)

variable {event : String} {t : Tree} {s : Shared} {n : Nat}

namespace Rule

variable {r : Rule}

/-- What a rule makes of a tree has no longer arrays, unless it writes at an index beyond. -/
theorem longest_run_le (hr : r.phase = .main) (hn : 65536 ≤ n)
    (htarget : ∀ path, r.target? = some path → path.excess? = none) (ht : t.longest ≤ n)
    (hs : s.storage.longest event ≤ n) :
    ∃ next, (r.transform event t).run s = (.ok next, s) ∧ next.longest ≤ n := by
  cases hw : r.writing? event t s with
  | some w =>
    obtain ⟨path, hpath, hsteps⟩ := steps_of_writing? hw
    obtain ⟨hbase, hvalue⟩ := writing?_induct (P := fun t => t.longest ≤ n)
      (fun _ => Nat.zero_le n) (fun _ _ hget => Storage.longest_get?_le hs hget)
      (Tree.longest_extract_le ht) (fun _ _ => Tree.longest_read?_le ht) hw
    refine ⟨w.result, run_of_writing? hw, Tree.longest_assign_le hbase (fun i hi => ?_) hvalue⟩
    exact (Path.slots_le (htarget path hpath) (hsteps ▸ hi)).trans hn
  | none =>
    rcases run_of_writing?_eq_none hr hw with hrun | ⟨c, hrun⟩
    · exact ⟨t, hrun, ht⟩
    · refine ⟨_, hrun, ?_⟩
      cases hp : c.prune "" t with
      | none => exact Nat.zero_le n
      | some kept => exact c.longest_prune_le hp ht

end Rule

namespace Pipeline

variable {rules : List Rule}

theorem longest_applyRules_le (hn : 65536 ≤ n) (hs : s.storage.longest event ≤ n)
    (hrules : ∀ r ∈ rules, r.phase = .main ∧ ∀ path, r.target? = some path → path.excess? = none)
    (ht : t.longest ≤ n) : ((applyRules event t rules).run s).1.1.longest ≤ n := by
  induction rules generalizing t with
  | nil => exact ht
  | cons r rules ih =>
    obtain ⟨⟨hmain, htarget⟩, hrest⟩ := List.forall_mem_cons.mp hrules
    obtain ⟨next, hrun, hnext⟩ := Rule.longest_run_le hmain hn htarget ht hs
    rw [run_applyRules_ok hrun]
    exact ih hrest hnext

/--
The second phase of a pipeline that could be built makes no array longer than the longest of the
tree and of the variables of the event, or than 65536 slots. In all that is written on the way,
arrays have at most that many slots, and each slot that is to be written to is there.
-/
theorem applyTree_longest_le {ts : List Transform} {p : Pipeline} (hp : ofTransforms ts = .ok p)
    (event : String) (t : Tree) (s : Shared) :
    ((p.applyTree event t .main).run s).1.1.longest ≤
        max 65536 (max t.longest (s.storage.longest event)) ∧
      ∀ w ∈ writings event t s (p.phaseRules .main),
        (∀ i, .index i ∈ w.steps → i + 1 ≤ 65536) ∧
          Tree.encode? w.steps w.value = some (Tree.encode w.steps w.value) := by
  have htarget : ∀ r ∈ p.rules, ∀ path, r.target? = some path → path.excess? = none := by
    intro r hr path hpath
    obtain ⟨_, -, _, -, hc⟩ := exists_configure_of_mem hp hr
    exact Rule.excess?_of_configure hc hpath
  constructor
  · -- What holds of the tree, the variables and 65536 slots holds after each rule.
    apply longest_applyRules_le
    · exact Nat.le_max_left _ _
    · exact (Nat.le_max_right _ _).trans (Nat.le_max_right _ _)
    · intro r hr
      obtain ⟨hr, hmain⟩ := mem_phaseRules.mp hr
      exact ⟨hmain, htarget r hr⟩
    · exact (Nat.le_max_left _ _).trans (Nat.le_max_right _ _)
  · intro w hw
    obtain ⟨r, hr, t', s', hw⟩ := exists_of_mem_writings hw
    obtain ⟨path, hpath, hsteps⟩ := Rule.steps_of_writing? hw
    have hslots : ∀ i, .index i ∈ w.steps → i + 1 ≤ 65536 := fun i hi =>
      Path.slots_le (htarget r (mem_phaseRules.mp hr).1 path hpath) (hsteps ▸ hi)
    refine ⟨hslots, Tree.encode?_eq_some (fun i hi => (hslots i hi).trans_lt ?_) w.value⟩
    decide

/-- The largest index that may be written to, and a shift into the array that this makes. -/
theorem applyTree_longest_le_largest :
    let p : Pipeline := ⟨[.add ⟨⟨[.key "a", .index 65535]⟩, "$v"⟩,
      .shift ⟨⟨[.key "b"]⟩, ⟨[.key "a", .index 0]⟩, ""⟩]⟩
    let t := Tree.object [("b", .array [.null, .bool true])]
    ofTransforms [⟨.add, [{ key := "a[65535]", value := "$v" }]⟩,
        ⟨.shift, [{ key := "b:a[0]" }]⟩] = .ok p ∧
      ((p.applyTree "evt" t .main).run .fresh).1.1.longest ≤ 65536 ∧
      Tree.encode? [.key "a", .index 65535] (.text "$v") =
        some (Tree.encode [.key "a", .index 65535] (.text "$v")) := by
  intro p t
  have hp : ofTransforms [⟨.add, [{ key := "a[65535]", value := "$v" }]⟩,
      ⟨.shift, [{ key := "b:a[0]" }]⟩] = .ok p := eq_ok_of_toOption (by decide +kernel)
  obtain ⟨hlongest, hwritings⟩ := applyTree_longest_le hp "evt" t .fresh
  refine ⟨hp, hlongest.trans (by decide +kernel), ?_⟩
  have hw : (⟨t, [.key "a", .index 65535], .text "$v"⟩ : Writing) ∈
      writings "evt" t .fresh (p.phaseRules .main) := List.mem_append_left _ (by decide +kernel)
  exact (hwritings _ hw).2

end Pipeline

end EventPipeline
