import EventPipeline.Proofs.Tree.Place
import EventPipeline.Proofs.Tree.Plain

/-!
Writing as placing: `assign` puts a node at the end of the steps, made of the value and of the node
that was there (`assign_eq_place`), so that the laws of `place` are laws of writing. Main
statements: what is read where a value was written (`read?_assign`), what is read elsewhere
(`read?_assign_fork`), and that values are written beside each other in any order (`assign_comm`).
-/

namespace EventPipeline

open EventPipeline.Path (Step)

/-- Whether the last step leads to an element of an array. -/
def Path.endsInElement (steps : List Step) : Bool := steps.getLast?.any fun s => !s.isKey

namespace Tree

/-- Whether a step asks for an element of something that is no array. -/
def lacksArray : Tree → Step → Bool
  | .array _, _ => false
  | _, .index _ => true
  | _, .key _ => false

/-- Whether writing at the end of the steps makes a new array. -/
def opensArray (t : Tree) : List Step → Bool
  | [] => false
  | s :: steps => t.lacksArray s || (t.childOrNull s).opensArray steps

/-- A value laid over the node at the end of the steps; in an array null is padding. -/
def overlay (node value : Tree) (steps : List Step) : Tree :=
  if value = .null ∧ Path.endsInElement steps then node else node.merge value

/-- What is at the end of the steps once a value has been written there. A new array takes the
value over as it is. -/
def written (t value : Tree) (steps : List Step) : Tree :=
  if t.opensArray steps then value else overlay (t.nodeOrNull steps) value steps

variable {t v : Tree} {s : Step} {steps : List Step}

/-! ### One step of writing -/

theorem assign_key {name : String} (h : name ≠ "") (t : Tree) (steps : List Step) (v : Tree) :
    t.assign (.key name :: steps) v =
      t.putChild ((t.childOrNull (.key name)).assign steps v) (.key name) := by
  rw [assign, encode_key, merge, mergeMembers, if_neg h, mergeMembers, childOrNull, child?_key]
  rfl

/-- Padding leaves the slots; the last element is laid over its slot, unless it is null. -/
theorem mergeItems_padded (slots : List Tree) (i : Nat) (item : Tree) :
    mergeItems [] slots (List.replicate i .null ++ [item]) =
      putItem slots i (if item.isNull then slots[i]?.getD .null
        else (slots[i]?.getD .null).merge item) := by
  induction i generalizing slots with
  | zero => cases slots <;> simp [mergeItems, putItem]
  | succ i ih =>
    rw [List.replicate_succ, List.cons_append]
    -- A null slot stays in front, be it the padding or the slot that it leaves.
    cases slots
    all_goals
      rw [mergeItems, mergeItems_done, ih]
      simp [isNull]

theorem isNull_encode_iff : (encode steps v).isNull = true ↔ steps = [] ∧ v = .null := by
  cases steps with
  | nil => cases v <;> simp [isNull]
  | cons s steps => cases s <;> simp [isNull]

theorem assign_index (slots : List Tree) (i : Nat) (steps : List Step) (v : Tree) :
    (array slots).assign (.index i :: steps) v = (array slots).putChild
      (if steps = [] ∧ v = .null then (array slots).childOrNull (.index i)
        else ((array slots).childOrNull (.index i)).assign steps v) (.index i) := by
  rw [assign, encode_index, merge, mergeItems_padded]
  simp only [isNull_encode_iff, putChild, childOrNull, child?_index]
  rfl

/-- An encoding is a value placed where nothing is. -/
theorem encode_eq_place (steps : List Step) (v : Tree) :
    encode steps v = Tree.null.place v steps := by
  induction steps with
  | nil => rfl
  | cons s steps ih =>
    rw [place, childOrNull_null, ← ih]
    cases s with
    | key name => rfl
    | index i => exact congrArg Tree.array (putItem_nil i _).symm

/-- A new array covers what stood in its place. -/
theorem assign_of_lacksArray (h : t.lacksArray s) (steps : List Step) (v : Tree) :
    t.assign (s :: steps) v = t.place v (s :: steps) := by
  cases s with
  | key name => cases t <;> cases h
  | index i =>
    cases t with
    | array items => cases h
    | _ =>
      rw [assign, encode_index, encode_eq_place]
      simp only [merge]
      exact congrArg Tree.array (putItem_nil i _).symm

/-! ### Writing as placing -/

theorem written_of_lacksArray (h : t.lacksArray s) (v : Tree) (steps : List Step) :
    t.written v (s :: steps) = v := by
  rw [written, opensArray, h, Bool.true_or, if_pos rfl]

/-- Below the last step it makes no difference whether the way begins at a tree or at its child. -/
theorem written_cons (hl : ¬ t.lacksArray s) (h : steps = [] → s.isKey) (v : Tree) :
    t.written v (s :: steps) = (t.childOrNull s).written v steps := by
  have hends : Path.endsInElement (s :: steps) = Path.endsInElement steps := by
    cases steps with
    | nil => simp [Path.endsInElement, h rfl]
    | cons => rfl
  rw [Bool.not_eq_true] at hl
  simp only [written, opensArray, hl, Bool.false_or, nodeOrNull_cons, overlay, hends]

theorem written_index (slots : List Tree) (i : Nat) (v : Tree) (steps : List Step) :
    (array slots).written v (.index i :: steps) =
      if steps = [] ∧ v = .null then (array slots).childOrNull (.index i)
      else ((array slots).childOrNull (.index i)).written v steps := by
  cases steps with
  | nil => simp [written, opensArray, lacksArray, overlay, Path.endsInElement, Step.isKey]
  | cons r steps =>
    have hne : r :: steps ≠ [] := List.cons_ne_nil r steps
    have hl : ¬ (array slots).lacksArray (.index i) := Bool.false_ne_true
    rw [if_neg fun h => hne h.1, written_cons hl fun h => absurd h hne]

theorem child?_of_lacksArray (h : t.lacksArray s) : t.child? s = none := by
  cases s with
  | key name => cases t <;> cases h
  | index i =>
    cases t with
    | array items => cases h
    | _ => rfl

/-- The way to a new array leads through nothing that is there. -/
theorem read?_of_opensArray (h : t.opensArray steps) : t.read? steps = none := by
  induction steps generalizing t with
  | nil => cases h
  | cons s steps ih =>
    rcases Bool.or_eq_true_iff.mp h with hl | h
    · rw [read?, child?_of_lacksArray hl, Option.bind_none]
    · have hne : steps ≠ [] := by
        rintro rfl
        cases h
      rw [← read?_childOrNull t s hne, ih h]

/-- To write a value is to put it, laid over what is there, in the place of what is there. -/
theorem assign_eq_place (h : .key "" ∉ steps) (t v : Tree) :
    t.assign steps v = t.place (t.written v steps) steps := by
  induction steps generalizing t with
  | nil => simp [assign, place, written, opensArray, overlay, Path.endsInElement]
  | cons s steps ih =>
    obtain ⟨hs, hsteps⟩ := List.ne_and_not_mem_of_not_mem_cons h
    -- A new array takes over the rest of the encoding, and nothing is merged below it.
    by_cases hl : t.lacksArray s
    · rw [assign_of_lacksArray hl, written_of_lacksArray hl]
    cases s with
    | key name =>
      have hname : name ≠ "" := fun he => hs (he ▸ rfl)
      rw [assign_key hname, ih hsteps, place, written_cons hl fun _ => rfl]
    | index i =>
      cases t with
      | array slots =>
        rw [assign_index, place, written_index]
        split
        · next hp => rw [hp.1, place]
        · rw [ih hsteps]
      | _ => exact absurd rfl hl

/-- What is written is laid over the node there, be the array new or not. -/
theorem written_of_plain (hv : v.Plain) (hw : v.WellFormed) (t : Tree) (steps : List Step) :
    t.written v steps = overlay (t.nodeOrNull steps) v steps := by
  rw [written]
  split
  · next h =>
    rw [nodeOrNull, read?_of_opensArray h, Option.getD_none, overlay, merge_null_of_plain hv hw]
    split
    · next hn => exact hn.1
    · rfl
  · rfl

/-! ### Laws of writing -/

/-- A scalar covers everything. -/
theorem merge_of_not_isContainer (h : v.isContainer = false) (base : Tree) : base.merge v = v := by
  cases v with
  | array | object => cases h
  | _ => simp only [merge]

/--
A value is read back where it was written: laid over the node that was there, or as it is when it
covers that node, or when there was none. Null in an array is no value, but padding.
-/
theorem read?_assign (hsteps : .key "" ∉ steps) (hw : v.WellFormed) (hv : v.Named)
    (hnull : ¬ (v = .null ∧ Path.endsInElement steps)) (t : Tree) :
    (t.assign steps v).read? steps = some (((t.read? steps).getD .null).merge v) ∧
    (v.isContainer = false ∨ t.read? steps = none → (t.assign steps v).read? steps = some v) := by
  have hread : (t.assign steps v).read? steps = some ((t.nodeOrNull steps).merge v) := by
    rw [assign_eq_place hsteps, read?_place_self, written_of_plain hv.plain hw, overlay,
      if_neg hnull]
  refine ⟨hread, fun h => hread.trans (congrArg some ?_)⟩
  rcases h with hscalar | hnone
  · exact merge_of_not_isContainer hscalar _
  · rw [nodeOrNull, hnone, Option.getD_none, merge_null_of_plain hv.plain hw]

/-- Over an object in an array; the null member is a member like any other. -/
theorem read?_assign_slot :
    let t := object [("a", array [object [("x", bool true)]])]
    let v := object [("y", null)]
    let steps : List Step := [.key "a", .index 0]
    (.key "" ∉ steps ∧ v.WellFormed ∧ v.Named ∧ ¬ (v = .null ∧ Path.endsInElement steps)) ∧
    (t.assign steps v).read? steps = some (object [("x", bool true), ("y", null)]) := by
  intro t v steps
  have hsteps : .key "" ∉ steps := by decide
  have hw : v.WellFormed := ⟨List.pairwise_singleton _ _, trivial, trivial⟩
  have hv : v.Named := .object (by decide) fun m hm => List.mem_singleton.mp hm ▸ .null
  have hnull : ¬ (v = .null ∧ Path.endsInElement steps) := fun h => nomatch h.1
  refine ⟨⟨hsteps, hw, hv, hnull⟩, (read?_assign hsteps hw hv hnull t).1.trans ?_⟩
  decide +kernel

/--
Beside the steps where a value is written, a reader finds what was there before, or one of the null
slots that now precede the value. Asked for a child of another kind than the steps lead to, a reader
finds none.
-/
theorem read?_assign_fork (common ps qs : List Step) {s r : Step}
    (hsteps : .key "" ∉ common ++ s :: ps) (t v : Tree) :
    (s.Beside r → (t.assign (common ++ s :: ps) v).read? (common ++ r :: qs) =
      if r.isBefore s && qs.isEmpty then some ((t.read? (common ++ r :: qs)).getD .null)
      else t.read? (common ++ r :: qs)) ∧
    (s.isKey ≠ r.isKey → (t.assign (common ++ s :: ps) v).read? (common ++ r :: qs) = none) := by
  rw [assign_eq_place hsteps]
  exact ⟨fun h => read?_place_of_beside h t _, fun h => read?_place_of_isKey_ne h t _⟩

/-- An array that is too short for the value is filled up with null; it never becomes an object. -/
theorem read?_assign_fork_gap :
    let t := object [("a", array [bool true])]
    let v := text "v"
    let steps : List Step := [.key "a", .index 2, .key "x"]
    .key "" ∉ steps ∧ t.read? [.key "a", .index 1] = none ∧
      (t.assign steps v).read? [.key "a", .index 1] = some .null ∧
      (t.assign steps v).read? [.key "a", .key "b"] = none := by
  intro t v steps
  have hsteps : .key "" ∉ steps := by decide
  have hgap := (read?_assign_fork [.key "a"] [.key "x"] [] hsteps t v).1
    (.index (show 2 ≠ 1 by decide))
  have hkind := (read?_assign_fork (r := .key "b") [.key "a"] [.key "x"] [] hsteps t v).2
    (by decide)
  exact ⟨hsteps, rfl, hgap, hkind⟩

/-- Values are written beside each other in any order. -/
theorem assign_comm {a b : Tree} (common ps qs : List Step) {s r : Step} (h : s.Beside r)
    (hp : .key "" ∉ common ++ s :: ps) (hq : .key "" ∉ common ++ r :: qs)
    (ha : a.WellFormed ∧ a.Named) (hb : b.WellFormed ∧ b.Named) (t : Tree) :
    (t.assign (common ++ s :: ps) a).assign (common ++ r :: qs) b =
      (t.assign (common ++ r :: qs) b).assign (common ++ s :: ps) a := by
  have hwa := written_of_plain ha.2.plain ha.1
  have hwb := written_of_plain hb.2.plain hb.1
  simp only [assign_eq_place hp, assign_eq_place hq, hwa, hwb, nodeOrNull_place_of_beside h,
    nodeOrNull_place_of_beside h.symm]
  exact place_comm h t _ _

/-- Two elements of an array that comes in the place of a text. -/
theorem assign_comm_gap :
    let t := text "old"
    let a := object [("x", null)]
    let b := bool true
    (Step.Beside (.index 0) (.index 2) ∧ (a.WellFormed ∧ a.Named) ∧ b.WellFormed ∧ b.Named) ∧
    (t.assign [.index 0, .key "k"] a).assign [.index 2] b =
      (t.assign [.index 2] b).assign [.index 0, .key "k"] a := by
  intro t a b
  have hbeside : Step.Beside (.index 0) (.index 2) := .index (by decide)
  have ha : a.WellFormed ∧ a.Named :=
    ⟨⟨List.pairwise_singleton _ _, trivial, trivial⟩,
      .object (by decide) fun m hm => List.mem_singleton.mp hm ▸ .null⟩
  have hb : b.WellFormed ∧ b.Named := ⟨trivial, .bool true⟩
  refine ⟨⟨hbeside, ha, hb⟩, ?_⟩
  exact assign_comm [] [.key "k"] [] hbeside (by decide) (by decide)
    ha hb t

end Tree

end EventPipeline
