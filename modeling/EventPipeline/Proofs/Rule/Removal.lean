import EventPipeline.Proofs.Rule.Prune
import EventPipeline.Proofs.Text.Digits

/-!
What a delete leaves of a tree. A position *stays* when neither its node nor one above it is
selected. The positions of the pruned tree are those that stay, each with its indices lowered
(`read?_prune_iff`, `lowered_injective`), and hold the same scalars and the same kinds of
containers. Once the path of a member is deleted, a reader does not find it, whatever elements have
moved up (`Selection.eq_of_lowered_eq`).
-/

namespace EventPipeline

open EventPipeline.Path (Step)

/-- Two trees are the same scalar or containers of the same kind. -/
inductive Tree.Alike : Tree → Tree → Prop where
  | array (items items' : List Tree) : Alike (.array items) (.array items')
  | object (members members' : List (String × Tree)) : Alike (.object members) (.object members')
  | scalar {t : Tree} : t.isContainer = false → Alike t t

namespace Delete.Selection

variable (c : Selection)

/-- A position of a tree such that neither its node nor one above it is selected. -/
structure Stays (trail : String) (t : Tree) (position : List Step) : Prop where
  resolves : (t.read? position).isSome
  spared : ∀ above, above <+: position → ¬ c.hits trail t above

/-- The position of a node once the tree is pruned: each index is lowered by the number of
selected elements before it. -/
def lowered (trail : String) (t : Tree) : List Step → List Step
  | [] => []
  | s :: rest =>
    c.lowerStep trail t s :: lowered (stepTrail c.separator trail s) (t.childOrNull s) rest

variable {c} {trail : String} {t child : Tree} {s : Step} {rest : List Step}

theorem hits_cons (h : t.child? s = some child) (rest : List Step) :
    c.hits trail t (s :: rest) = c.hits (stepTrail c.separator trail s) child rest := by
  rw [hits, Tree.read?, h, Option.bind_some]
  rfl

theorem lowered_cons (h : t.child? s = some child) (rest : List Step) :
    c.lowered trail t (s :: rest) =
      c.lowerStep trail t s :: c.lowered (stepTrail c.separator trail s) child rest := by
  rw [lowered, Tree.childOrNull, h, Option.getD_some]

theorem stays_nil : c.Stays trail t [] ↔ ¬ c.hits trail t [] := by
  constructor
  · exact fun h => h.spared [] List.prefix_rfl
  · intro h
    refine ⟨rfl, fun above habove => ?_⟩
    rwa [List.prefix_nil.mp habove]

theorem stays_cons : c.Stays trail t (s :: rest) ↔ ¬ c.hits trail t [] ∧
    ∃ child, t.child? s = some child ∧ c.Stays (stepTrail c.separator trail s) child rest := by
  constructor
  · intro h
    obtain ⟨node, hnode⟩ := Option.isSome_iff_exists.mp h.resolves
    obtain ⟨child, hchild, hnode⟩ := Option.bind_eq_some_iff.mp hnode
    refine ⟨h.spared [] List.nil_prefix, child, hchild, Option.isSome_of_mem hnode,
      fun above habove => ?_⟩
    rw [← hits_cons hchild]
    exact h.spared (s :: above) ((List.prefix_cons_inj s).mpr habove)
  · rintro ⟨hroot, child, hchild, h⟩
    refine ⟨by rw [Tree.read?, hchild]; exact h.resolves, fun above habove => ?_⟩
    rcases List.prefix_cons_iff.mp habove with rfl | ⟨below, rfl, hbelow⟩
    · exact hroot
    · rw [hits_cons hchild]
      exact h.spared below hbelow

/-- The root of a tree in which a position stays is not selected. -/
theorem Stays.prune_eq {position : List Step} (h : c.Stays trail t position) :
    c.prune trail t = some (c.pruned trail t) :=
  prune_eq_some_iff.mpr ⟨h.spared [] List.nil_prefix, rfl⟩

theorem alike_pruned (t : Tree) : t.Alike (c.pruned trail t) := by
  cases t with
  | array items => exact .array _ _
  | object members => exact .object _ _
  | _ => exact .scalar rfl

/-- What a reader finds in the pruned tree is what remains of a node that stays. -/
theorem read?_prune_iff (ht : t.WellFormed) {place : List Step} {x : Tree} :
    (c.prune trail t).bind (·.read? place) = some x ↔
      ∃ position, c.Stays trail t position ∧ c.lowered trail t position = place ∧
        (t.read? position).bind (c.prune (trailOf c.separator trail position)) = some x := by
  induction place generalizing trail t with
  | nil =>
    constructor
    · intro h
      have hx : c.prune trail t = some x := by
        simpa only [Tree.read?_nil, Option.bind_fun_some] using h
      exact ⟨[], stays_nil.mpr (prune_eq_some_iff.mp hx).1, rfl, hx⟩
    · rintro ⟨position, -, hplace, hx⟩
      cases position with
      | nil => exact Option.bind_eq_some_iff.mpr ⟨x, hx, rfl⟩
      | cons => cases hplace
  | cons r place ih =>
    constructor
    · intro h
      obtain ⟨remains, hremains, h⟩ := Option.bind_eq_some_iff.mp h
      obtain ⟨hroot, rfl⟩ := prune_eq_some_iff.mp hremains
      obtain ⟨remains, hremains, h⟩ := Option.bind_eq_some_iff.mp h
      obtain ⟨s, hs, hr⟩ := (child?_pruned_iff ht).mp hremains
      obtain ⟨child, hchild, hs⟩ := Option.bind_eq_some_iff.mp hs
      obtain ⟨rest, hstays, hplace, hx⟩ :=
        (ih (ht.child? hchild)).mp (Option.bind_eq_some_iff.mpr ⟨remains, hs, h⟩)
      refine ⟨s :: rest, stays_cons.mpr ⟨hroot, child, hchild, hstays⟩, ?_, ?_⟩
      · rw [lowered_cons hchild, hr, hplace]
      · rw [Tree.read?, hchild]
        exact hx
    · rintro ⟨position, hstays, hplace, hx⟩
      cases position with
      | nil => cases hplace
      | cons s rest =>
        obtain ⟨hroot, child, hchild, hstays⟩ := stays_cons.mp hstays
        rw [lowered_cons hchild] at hplace
        obtain ⟨hr, hplace⟩ := List.cons.inj hplace
        rw [Tree.read?, hchild] at hx
        obtain ⟨remains, hremains, h⟩ := Option.bind_eq_some_iff.mp
          ((ih (ht.child? hchild)).mpr ⟨rest, hstays, hplace, hx⟩)
        have hread : (c.pruned trail t).child? r = some remains :=
          (child?_pruned_iff ht).mpr
            ⟨s, Option.bind_eq_some_iff.mpr ⟨child, hchild, hremains⟩, hr⟩
        rw [prune_eq_some_iff.mpr ⟨hroot, rfl⟩, Option.bind_some, Tree.read?, hread]
        exact h

/-- Different positions that stay are found at different places. -/
theorem lowered_injective {p q : List Step} (hp : c.Stays trail t p) (hq : c.Stays trail t q)
    (h : c.lowered trail t p = c.lowered trail t q) : p = q := by
  induction p generalizing trail t q with
  | nil =>
    cases q with
    | nil => rfl
    | cons => cases h
  | cons s p ih =>
    cases q with
    | nil => cases h
    | cons s' q =>
      obtain ⟨-, child, hchild, hp⟩ := stays_cons.mp hp
      obtain ⟨-, child', hchild', hq⟩ := stays_cons.mp hq
      rw [lowered_cons hchild, lowered_cons hchild'] at h
      obtain ⟨hs, h⟩ := List.cons.inj h
      have hx := Option.bind_eq_some_iff.mpr ⟨child, hchild, hp.prune_eq⟩
      have hx' := Option.bind_eq_some_iff.mpr ⟨child', hchild', hq.prune_eq⟩
      obtain rfl := lowerStep_injective hx hx' hs
      obtain rfl : child = child' := Option.some.inj (hchild.symm.trans hchild')
      rw [ih hp hq h]

/-! ### The path of a member -/

section Trails

variable {separator : String}

theorem exists_stepTrail_eq (hsep : separator ≠ "") (htrail : trail ≠ "") (s : Step) :
    ∃ w, w ≠ "" ∧ stepTrail separator trail s = trail ++ w := by
  cases s with
  | key name =>
    refine ⟨separator ++ name, fun h => hsep (String.append_eq_empty_iff.mp h).1, ?_⟩
    rw [stepTrail, memberTrail, if_neg htrail, String.append_assoc]
  | index i =>
    refine ⟨"[" ++ (toString i ++ "]"), fun h => ?_, ?_⟩
    · exact absurd (String.append_eq_empty_iff.mp h).1 (by decide)
    · simp only [stepTrail, elementTrail, String.append_assoc]

/-- Below a node whose trail is not empty, all trails are longer. -/
theorem exists_trailOf_eq (hsep : separator ≠ "") (htrail : trail ≠ "") {position : List Step}
    (h : position ≠ []) : ∃ w, w ≠ "" ∧ trailOf separator trail position = trail ++ w := by
  induction position generalizing trail with
  | nil => exact absurd rfl h
  | cons s rest ih =>
    obtain ⟨w, hw, hs⟩ := exists_stepTrail_eq hsep htrail s
    rw [trailOf, List.foldl_cons, hs]
    cases rest with
    | nil => exact ⟨w, hw, rfl⟩
    | cons r rest =>
      have hne : trail ++ w ≠ "" := fun h => htrail (String.append_eq_empty_iff.mp h).1
      obtain ⟨w', -, hrest⟩ := ih hne (List.cons_ne_nil r rest)
      refine ⟨w ++ w', fun h => hw (String.append_eq_empty_iff.mp h).1, ?_⟩
      rw [← String.append_assoc]
      exact hrest

theorem bracket_notMem_repr (n : Nat) : ']' ∉ n.repr.toList := by
  intro h
  rw [Nat.toList_repr] at h
  exact absurd (Text.isDigit_of_mem_toDigits h) (by decide)

/-- No element has the trail of a node below an element of the same array. -/
theorem trailOf_elementTrail_ne (hsep : separator ≠ "") (trail : String) (i j : Nat)
    {rest : List Step} (hrest : rest ≠ []) :
    trailOf separator (elementTrail trail i) rest ≠ elementTrail trail j := by
  intro h
  have htrail : elementTrail trail i ≠ "" := fun h =>
    absurd (String.append_eq_empty_iff.mp h).2 (by decide)
  obtain ⟨w, hw, heq⟩ := exists_trailOf_eq hsep htrail hrest
  have hchars : j.repr.toList ++ ']' :: [] = i.repr.toList ++ ']' :: w.toList := by
    have := congrArg String.toList (h.symm.trans heq)
    simpa [elementTrail] using this
  -- On the left there is but one bracket, which ends the index on both sides.
  obtain ⟨-, -, hempty⟩ := (List.append_cons_inj_of_notMem (bracket_notMem_repr j)
    List.not_mem_nil).mp hchars
  exact hw (String.toList_eq_nil_iff.mp hempty.symm)

end Trails

theorem key_eq_of_hits (hne : c.key ≠ "") {position : List Step}
    (h : c.hits trail t position) : c.key = trailOf c.separator trail position := by
  obtain ⟨node, -, hselects⟩ := (Option.any_eq_true _ _).mp h
  have hkey := (Bool.and_eq_true_iff.mp hselects).1
  simpa [hne] using hkey

/-- On the way to the member whose trail is deleted, no element before the one that leads there is
selected. -/
theorem eq_of_lowerStep_eq (hsep : c.separator ≠ "") (hne : c.key ≠ "") {r : Step}
    (hkey : c.key = trailOf c.separator trail (r :: rest)) (hlast : rest = [] → r.isKey)
    (h : c.lowerStep trail t s = r) : s = r := by
  cases s with
  | key name => exact h
  | index i =>
    subst h
    have hrest : rest ≠ [] := fun h => Bool.false_ne_true (hlast h)
    have hcount : Nat.count (fun j => c.hits trail t [.index j]) i = 0 := by
      refine Nat.count_iff_forall_not.mpr fun j _ hj => ?_
      exact trailOf_elementTrail_ne hsep trail _ j hrest (hkey.symm.trans (key_eq_of_hits hne hj))
    rw [lowerStep, hcount, Nat.sub_zero]

/-- The member whose trail is deleted is the only one that can come to its position. -/
theorem eq_of_lowered_eq (hsep : c.separator ≠ "") (hne : c.key ≠ "") {name : String}
    {path position : List Step} (hstays : c.Stays trail t position)
    (hkey : c.key = trailOf c.separator trail (path ++ [.key name]))
    (h : c.lowered trail t position = path ++ [.key name]) : position = path ++ [.key name] := by
  induction position generalizing trail t path with
  | nil => cases path <;> cases h
  | cons s rest ih =>
    obtain ⟨-, child, hchild, hstays⟩ := stays_cons.mp hstays
    rw [lowered_cons hchild] at h
    cases path with
    | nil =>
      obtain ⟨hs, hrest⟩ := List.cons.inj h
      rw [eq_of_lowerStep_eq hsep hne hkey (fun _ => rfl) hs]
      cases rest with
      | nil => rfl
      | cons => cases hrest
    | cons r path =>
      obtain ⟨hs, hrest⟩ := List.cons.inj h
      obtain rfl : s = r := eq_of_lowerStep_eq hsep hne hkey (by simp) hs
      rw [ih hstays hkey hrest, List.cons_append]

/-! ### Whole trees -/

/-- A node at a position that stays is found where its indices are lowered. -/
theorem Stays.exists_read? {position : List Step} (ht : t.WellFormed)
    (h : c.Stays trail t position) : ∃ node remains, t.read? position = some node ∧
      (c.prune trail t).bind (·.read? (c.lowered trail t position)) = some remains ∧
      node.Alike remains := by
  obtain ⟨node, hnode⟩ := Option.isSome_iff_exists.mp h.resolves
  have hspared : ¬ c.hits (trailOf c.separator trail position) node [] := by
    have := h.spared position List.prefix_rfl
    rwa [hits, hnode] at this
  have hremains := prune_eq_some_iff.mpr ⟨hspared, rfl⟩
  refine ⟨node, c.pruned (trailOf c.separator trail position) node, hnode, ?_, alike_pruned node⟩
  exact (read?_prune_iff ht).mpr
    ⟨position, h, rfl, Option.bind_eq_some_iff.mpr ⟨node, hnode, hremains⟩⟩

theorem existsUnique_stays (ht : t.WellFormed) {place : List Step}
    (h : ((c.prune trail t).bind (·.read? place)).isSome) :
    ∃! position, c.Stays trail t position ∧ c.lowered trail t position = place := by
  obtain ⟨x, hx⟩ := Option.isSome_iff_exists.mp h
  obtain ⟨position, hstays, hlowered, -⟩ := (read?_prune_iff ht).mp hx
  refine ⟨position, ⟨hstays, hlowered⟩, ?_⟩
  rintro other ⟨hother, hplace⟩
  exact lowered_injective hother hstays (hplace.trans hlowered.symm)

theorem read?_prune_eq_none (ht : t.WellFormed) (hsep : c.separator ≠ "") (hne : c.key ≠ "")
    (hfilter : c.filter = none) {name : String} {path : List Step}
    (hkey : c.key = trailOf c.separator trail (path ++ [.key name])) :
    (c.prune trail t).bind (·.read? (path ++ [.key name])) = none := by
  rw [Option.eq_none_iff_forall_ne_some]
  intro x hx
  obtain ⟨position, hstays, hlowered, -⟩ := (read?_prune_iff ht).mp hx
  obtain rfl := eq_of_lowered_eq hsep hne hstays hkey hlowered
  obtain ⟨node, hnode⟩ := Option.isSome_iff_exists.mp hstays.resolves
  refine hstays.spared _ List.prefix_rfl ?_
  rw [hits, hnode, ← hkey]
  simp [selects, Delete.selects, hfilter]

end Delete.Selection

namespace Delete

/-- What a delete removes when it works on an event. -/
def selection (d : Delete) (event : String) (shared : Shared) : Selection :=
  ⟨d.key, d.separator, ((d.filterFor event).run shared).1⟩

theorem run_transform (d : Delete) (event : String) (t : Tree) (shared : Shared) :
    ((d.transform event t).run shared).1 =
      ((d.selection event shared).prune "" t).getD .null := by
  rw [transform, Work.run_bind]
  rfl

/--
A delete removes the nodes that it selects, with what is below them, and nothing else. Without the
root, null remains. Otherwise each position that stays holds the same scalar or a container of the
same kind, at indices lowered by the number of selected elements before them; and each position of
the result comes from exactly one that stays. Without a filter, a reader does not find the member
with the trail that is deleted, whatever has moved up.
-/
theorem transform_removes_selected {t : Tree} (ht : t.WellFormed) (d : Delete)
    (hsep : d.separator ≠ "") (event : String) (shared : Shared) :
    let c := d.selection event shared
    let result := ((d.transform event t).run shared).1
    (c.hits "" t [] → result = .null) ∧
    (¬ c.hits "" t [] →
      (∀ position, c.Stays "" t position → ∃ node remains, t.read? position = some node ∧
        result.read? (c.lowered "" t position) = some remains ∧ node.Alike remains) ∧
      ∀ place, (result.read? place).isSome →
        ∃! position, c.Stays "" t position ∧ c.lowered "" t position = place) ∧
    (d.value = "" → ∀ path name, d.key = trailOf d.separator "" (path ++ [.key name]) →
      result.read? (path ++ [.key name]) = none) := by
  intro c result
  have hresult : result = (c.prune "" t).getD .null := run_transform d event t shared
  have hnull : c.hits "" t [] → result = .null := by
    intro hroot
    rw [hresult, Selection.prune_eq, if_pos hroot, Option.getD_none]
  have hread : ¬ c.hits "" t [] → ∀ place,
      result.read? place = (c.prune "" t).bind (·.read? place) := by
    intro hroot place
    rw [hresult, Selection.prune_eq, if_neg hroot]
    rfl
  refine ⟨hnull, fun hroot => ⟨fun position hstays => ?_, fun place hplace => ?_⟩,
    fun hvalue path name hkey => ?_⟩
  · rw [hread hroot]
    exact hstays.exists_read? ht
  · rw [hread hroot] at hplace
    exact Selection.existsUnique_stays ht hplace
  · by_cases hroot : c.hits "" t []
    · rw [hnull hroot]
      exact Tree.read?_null (by simp)
    have hfilter : c.filter = none := by
      simp only [c, selection, filterFor, if_pos hvalue]
      rfl
    -- Without a key and a filter the root is selected.
    have hne : c.key ≠ "" := by
      intro hempty
      refine hroot ?_
      simp [Selection.hits, Selection.selects, selects, hempty, hfilter]
    rw [hread hroot]
    exact Selection.read?_prune_eq_none ht hsep hne hfilter hkey

/-- Two texts are removed from a list, so that the last element moves up; and a member is no longer
found when another one has the same trail. -/
theorem transform_removes_selected_list :
    let t := Tree.object [("a", .object [("b", .null)]), ("a.b", .bool true),
      ("list", .array [.text "x", .null, .text "x", .bool false])]
    let byValue : Delete := ⟨"", ".", "$v"⟩
    let byPath : Delete := ⟨"a.b", ".", ""⟩
    let shared := { Shared.fresh with storage := Storage.empty.set "evt" "$v" (.text "x") }
    (t.WellFormed ∧ byValue.separator ≠ "" ∧ byPath.separator ≠ "") ∧
    ((byValue.selection "evt" shared).lowered "" t [.key "list", .index 3] =
        [.key "list", .index 1] ∧
      ((byValue.transform "evt" t).run shared).1.read? [.key "list", .index 1] =
        some (.bool false)) ∧
    ((byPath.transform "evt" t).run shared).1.read? [.key "a", .key "b"] = none := by
  intro t byValue byPath shared
  have ht : t.WellFormed := by
    refine ⟨?_, ⟨List.pairwise_singleton _ _, trivial, trivial⟩, trivial, ?_, trivial⟩
    · unfold Keyed.Sorted
      decide
    · exact ⟨trivial, trivial, trivial, trivial, trivial⟩
  have hsep : "." ≠ "" := by decide
  obtain ⟨-, hvalue, -⟩ := transform_removes_selected ht byValue hsep "evt" shared
  obtain ⟨-, -, hpath⟩ := transform_removes_selected ht byPath hsep "evt" shared
  have hlowered : (byValue.selection "evt" shared).lowered "" t [.key "list", .index 3] =
      [.key "list", .index 1] := by decide +kernel
  have hstays : (byValue.selection "evt" shared).Stays "" t [.key "list", .index 3] :=
    Selection.stays_cons.mpr ⟨by decide +kernel, _, rfl, Selection.stays_cons.mpr
      ⟨by decide +kernel, _, rfl, Selection.stays_nil.mpr (by decide +kernel)⟩⟩
  obtain ⟨node, remains, hnode, hremains, halike⟩ :=
    (hvalue (by decide +kernel)).1 _ hstays
  obtain rfl : node = .bool false := (Option.some.inj hnode).symm
  obtain rfl : Tree.bool false = remains := by
    cases halike
    rfl
  rw [hlowered] at hremains
  exact ⟨⟨ht, hsep, hsep⟩, ⟨hlowered, hremains⟩, hpath rfl [.key "a"] "b" (by decide +kernel)⟩

end Delete

end EventPipeline
