import EventPipeline.Proofs.Tree.Place

/-!
Taking the node at a path out of a tree. What is taken is what a reader finds; nothing is changed
when there is nothing to take, also when the search goes down into the tree and gives up there
(`take_eq_extract`). Otherwise a reader who turns off the path finds what was there before, and
below the array that an element was taken from, what stood behind the element has moved up
(`extract_takesOut`). A member that is put back where it was taken from restores the tree
(`place_extract`).
-/

namespace EventPipeline

namespace Keyed

variable {α : Type} {key : String} {value : α} {m : Keyed α}

theorem get?_replace_self (h : (get? key m).isSome) (value : α) :
    get? key (replace key value m) = some value := by
  induction m with
  | nil => cases h
  | cons e m ih =>
    obtain ⟨k, a⟩ := e
    by_cases hk : k = key
    · simp [replace, get?, hk]
    · simp only [replace, get?, if_neg hk] at h ⊢
      exact ih h

theorem get?_replace_of_ne {other : String} (h : other ≠ key) (value : α) (m : Keyed α) :
    get? other (replace key value m) = get? other m := by
  induction m with
  | nil => rfl
  | cons e m ih =>
    obtain ⟨k, a⟩ := e
    by_cases hk : k = key
    · subst hk
      simp [replace, get?, Ne.symm h]
    · simp [replace, get?, hk, ih]

theorem keys_replace (key : String) (value : α) (m : Keyed α) :
    (replace key value m).map Prod.fst = m.map Prod.fst := by
  induction m with
  | nil => rfl
  | cons e m ih =>
    obtain ⟨k, a⟩ := e
    rw [replace]
    split
    · rfl
    · rw [List.map_cons, List.map_cons, ih]

theorem mem_replace {e : String × α} (h : e ∈ replace key value m) : e.2 = value ∨ e ∈ m := by
  induction m with
  | nil => cases h
  | cons x m ih =>
    obtain ⟨k, a⟩ := x
    rw [replace] at h
    split at h
    · rcases List.mem_cons.mp h with rfl | h
      · exact .inl rfl
      · exact .inr (List.mem_cons_of_mem _ h)
    · rcases List.mem_cons.mp h with rfl | h
      · exact .inr List.mem_cons_self
      · exact (ih h).imp_right (List.mem_cons_of_mem _)

theorem sorted_iff {m : Keyed α} : Sorted m ↔ (m.map Prod.fst).Pairwise (· < ·) :=
  List.pairwise_map.symm

theorem sorted_replace {m : Keyed α} (hm : Sorted m) (key : String) (value : α) :
    Sorted (replace key value m) := by
  rw [sorted_iff, keys_replace]
  exact sorted_iff.mp hm

/-- A value is replaced by itself. -/
theorem replace_eq_self (h : get? key m = some value) : replace key value m = m := by
  induction m with
  | nil => rfl
  | cons e m ih =>
    obtain ⟨k, a⟩ := e
    by_cases hk : k = key
    · simp only [get?, if_pos hk, Option.some.injEq] at h
      rw [replace, if_pos hk, h]
    · rw [get?, if_neg hk] at h
      rw [replace, if_neg hk, ih h]

/-- A value is replaced where it stands. -/
theorem insert_replace (h : (get? key m).isSome) (hm : Sorted m) (first second : α) :
    insert key second (replace key first m) = replace key second m := by
  induction m with
  | nil => cases h
  | cons e m ih =>
    obtain ⟨k, a⟩ := e
    obtain ⟨hk, hm⟩ := List.pairwise_cons.mp hm
    by_cases hkey : k = key
    · simp [replace, insert, hkey]
    · rw [get?, if_neg hkey] at h
      obtain ⟨b, hb⟩ := Option.isSome_iff_exists.mp h
      have hlt : k < key := hk _ (mem_of_get? hb)
      rw [replace, if_neg hkey, replace, if_neg hkey, insert, if_neg hkey,
        if_neg (Std.not_lt.mpr (Std.le_of_lt hlt)), ih h hm]

/-- A value that is erased and put back stands where it stood. -/
theorem insert_erase (hm : Sorted m) (h : get? key m = some value) :
    insert key value (erase key m) = m := by
  refine eq_of_get?_eq (sorted_insert (sorted_erase hm key) key value) hm fun other => ?_
  by_cases ho : other = key
  · rw [ho, get?_insert_self, h]
  · rw [get?_insert_of_ne ho, get?_erase_of_ne ho]

/-- A value under a new key leaves nothing behind when it is erased. -/
theorem erase_insert (h : get? key m = none) (value : α) : erase key (insert key value m) = m := by
  induction m with
  | nil => simp [insert, erase]
  | cons e m ih =>
    obtain ⟨k, a⟩ := e
    have hk : k ≠ key := by
      rintro rfl
      simp [get?] at h
    rw [get?, if_neg hk] at h
    by_cases hlt : key < k
    · simp [insert, erase, hk, hlt]
    · simp [insert, erase, hk, hlt, ih h]

end Keyed

namespace Tree

open EventPipeline.Path (Step)

variable {t child node : Tree} {s r : Step} {common rest steps : List Step}

/-! ### One step -/

theorem child?_withChild_self (h : t.child? s = some child) (new : Tree) :
    (t.withChild new s).child? s = some new := by
  cases s with
  | key name =>
    cases t with
    | object members => exact Keyed.get?_replace_self (Option.isSome_of_mem h) new
    | _ => cases h
  | index i =>
    cases t with
    | array items =>
      have hi : i < items.length := (List.getElem?_eq_some_iff.mp h).1
      exact List.getElem?_set_self hi
    | _ => cases h

/-- Another child in one place leaves all other places. -/
theorem child?_withChild_of_ne (h : s ≠ r) (t new : Tree) :
    (t.withChild new s).child? r = t.child? r := by
  cases s with
  | key name =>
    cases t with
    | object members =>
      cases r with
      | key other => exact Keyed.get?_replace_of_ne (fun ho => h (congrArg _ ho.symm)) new members
      | index j => rfl
    | _ => rfl
  | index i =>
    cases t with
    | array items =>
      cases r with
      | key other => rfl
      | index j => exact List.getElem?_set_ne fun hij => h (congrArg _ hij)
    | _ => rfl

/-- A child in its own place makes no difference. -/
theorem withChild_eq_self (h : t.child? s = some child) : t.withChild child s = t := by
  cases s with
  | key name =>
    cases t with
    | object members => exact congrArg Tree.object (Keyed.replace_eq_self h)
    | _ => rfl
  | index i =>
    cases t with
    | array items =>
      obtain ⟨hi, rfl⟩ := List.getElem?_eq_some_iff.mp h
      exact congrArg Tree.array (List.set_getElem_self hi)
    | _ => rfl

theorem child?_withoutChild_key (ht : t.WellFormed) (name : String) :
    (t.withoutChild (.key name)).child? (.key name) = none := by
  cases t with
  | object members => exact Keyed.get?_erase_self ht.1 name
  | _ => rfl

theorem child?_withoutChild_key_of_ne {name : String} (h : .key name ≠ r) (t : Tree) :
    (t.withoutChild (.key name)).child? r = t.child? r := by
  cases t with
  | object members =>
    cases r with
    | key other => exact Keyed.get?_erase_of_ne (fun ho => h (congrArg _ ho.symm)) members
    | index j => rfl
  | _ => rfl

theorem child?_withoutChild_index (t : Tree) (i k : Nat) :
    (t.withoutChild (.index i)).child? (.index k) =
      t.child? (.index (if k < i then k else k + 1)) := by
  cases t with
  | array items =>
    change (items.eraseIdx i)[k]? = items[if k < i then k else k + 1]?
    rw [List.getElem?_eraseIdx]
    split <;> rfl
  | _ => rfl

/-! ### Taking a node out -/

theorem extract_of_child?_eq_none (h : t.child? s = none) (rest : List Step) :
    t.extract (s :: rest) = (t, none) := by
  rw [extract, h]

theorem extract_singleton (h : t.child? s = some child) :
    t.extract [s] = (t.withoutChild s, some child) := by
  rw [extract, h]
  rfl

/-- A tree in which there is nothing to take stays as it is. -/
theorem extract_eq_self (h : (t.extract steps).2 = none) : (t.extract steps).1 = t := by
  cases steps with
  | nil => cases h
  | cons s rest =>
    rw [extract] at h ⊢
    split
    · rfl
    · next child hchild =>
      rw [hchild] at h
      dsimp only at h ⊢
      split
      · next hrest =>
        rw [if_pos hrest] at h
        cases h
      · next hrest =>
        rw [if_neg hrest] at h
        split
        · rfl
        · next remaining removed hextract =>
          rw [hextract] at h
          cases h

/-- Above the last step, what remains of a child is put in its place, also if that is all of it. -/
theorem extract_cons (h : t.child? s = some child) (hrest : rest ≠ []) :
    t.extract (s :: rest) = (t.withChild (child.extract rest).1 s, (child.extract rest).2) := by
  have hself : (child.extract rest).2 = none → (child.extract rest).1 = child := extract_eq_self
  rw [extract, h]
  dsimp only
  rw [if_neg (mt List.isEmpty_iff.mp hrest)]
  rcases hextract : child.extract rest with ⟨remaining, _ | removed⟩
  · rw [hextract] at hself
    dsimp only at hself ⊢
    rw [hself rfl, withChild_eq_self h]
  · rfl

/-- What null and every child of a tree have, and what a tree keeps whose child is replaced or
removed, what remains of a tree has. -/
theorem extract_induct {P : Tree → Prop} (null : P .null)
    (child : ∀ t s x, t.child? s = some x → P t → P x)
    (replace : ∀ t s x, P t → P x → P (t.withChild x s))
    (remove : ∀ t s, P t → P (t.withoutChild s)) (h : P t) (steps : List Step) :
    P (t.extract steps).1 := by
  induction steps generalizing t with
  | nil => exact null
  | cons s rest ih =>
    cases hc : t.child? s with
    | none =>
      rw [extract_of_child?_eq_none hc]
      exact h
    | some x =>
      by_cases hrest : rest = []
      · rw [hrest, extract_singleton hc]
        exact remove t s h
      · rw [extract_cons hc hrest]
        exact replace t s _ h (ih (child t s x hc h))

/--
Takes the node at a path out of a tree that is changed on the way: each container gets back the
child that was gone into, in whatever state that was left.
-/
def take (t : Tree) : List Step → Tree × Option Tree
  | [] => (.null, some t)
  | step :: rest =>
    match t.child? step with
    | none => (t, none)
    | some child =>
      if rest.isEmpty then (t.withoutChild step, some child)
      else (t.withChild (child.take rest).1 step, (child.take rest).2)

/-- To change the tree on the way comes to the same, wherever the way ends. -/
theorem take_eq_extract (t : Tree) (steps : List Step) : t.take steps = t.extract steps := by
  induction steps generalizing t with
  | nil => rfl
  | cons s rest ih =>
    rw [take]
    cases hchild : t.child? s with
    | none => rw [extract_of_child?_eq_none hchild]
    | some child =>
      dsimp only
      by_cases hrest : rest = []
      · subst hrest
        rw [extract_singleton hchild]
        rfl
      · rw [if_neg (mt List.isEmpty_iff.mp hrest), ih, extract_cons hchild hrest]

theorem read?_append (t : Tree) (steps rest : List Step) :
    t.read? (steps ++ rest) = (t.read? steps).bind (·.read? rest) := by
  induction steps generalizing t with
  | nil => rfl
  | cons s steps ih =>
    rw [List.cons_append, read?, read?, Option.bind_assoc]
    exact congrArg _ (funext ih)

/-- Down to a container that stays, the way is the same as before; what is read below it is what
remains there. -/
theorem read?_extract_append (hnode : t.read? common = some node) (hrest : rest ≠ [])
    (qs : List Step) : (t.extract (common ++ rest)).1.read? (common ++ qs) =
      (node.extract rest).1.read? qs := by
  induction common generalizing t with
  | nil =>
    obtain rfl := Option.some.inj hnode
    rfl
  | cons c common ih =>
    obtain ⟨child, hchild, hnode⟩ := Option.bind_eq_some_iff.mp hnode
    have hne : common ++ rest ≠ [] := fun h => hrest (List.append_eq_nil_iff.mp h).2
    rw [List.cons_append, extract_cons hchild hne, List.cons_append, read?,
      child?_withChild_self hchild, Option.bind_some, ih hnode]

theorem extract_eq_self_of_read? (h : t.read? steps = none) : (t.extract steps).1 = t :=
  extract_eq_self ((snd_extract t steps).trans h)

section Fork

variable {ps qs : List Step}

theorem child?_extract_of_ne (h : s ≠ r) (hlast : ps = [] → s.isKey) (t : Tree) :
    (t.extract (s :: ps)).1.child? r = t.child? r := by
  cases hchild : t.child? s with
  | none => rw [extract_of_child?_eq_none hchild]
  | some child =>
    by_cases hps : ps = []
    · subst hps
      rw [extract_singleton hchild]
      cases s with
      | key name => exact child?_withoutChild_key_of_ne h t
      | index i => exact absurd (hlast rfl) Bool.false_ne_true
    · rw [extract_cons hchild hps]
      exact child?_withChild_of_ne h t _

/-- A reader who turns off the path finds what was there, but where elements may have moved up. -/
theorem read?_extract_of_ne (h : s ≠ r) (hlast : ps = [] → s.isKey) (t : Tree) :
    (t.extract (common ++ s :: ps)).1.read? (common ++ r :: qs) =
      t.read? (common ++ r :: qs) := by
  cases hnode : t.read? common with
  | none =>
    have hnone : t.read? (common ++ s :: ps) = none := by
      rw [read?_append, hnode, Option.bind_none]
    rw [extract_eq_self_of_read? hnone]
  | some node =>
    rw [read?_extract_append hnode (List.cons_ne_nil s ps), read?_append, hnode, Option.bind_some,
      read?, read?, child?_extract_of_ne h hlast]

end Fork

/-- A member that was taken out is no longer found. -/
theorem read?_extract_key (ht : t.WellFormed) (path : List Step) (name : String) :
    (t.extract (path ++ [.key name])).1.read? (path ++ [.key name]) = none := by
  cases hx : t.read? (path ++ [.key name]) with
  | none => rw [extract_eq_self_of_read? hx, hx]
  | some x =>
    rw [read?_append] at hx
    obtain ⟨node, hnode, hx⟩ := Option.bind_eq_some_iff.mp hx
    obtain ⟨child, hchild, -⟩ := Option.bind_eq_some_iff.mp hx
    rw [read?_extract_append hnode (List.cons_ne_nil _ _), extract_singleton hchild, read?,
      child?_withoutChild_key (ht.read? hnode), Option.bind_none]

/-- Where an element was taken out, the array lacks it, and what stood behind it has moved up. -/
theorem exists_read?_extract_index {path : List Step} {i : Nat}
    (hx : (t.read? (path ++ [.index i])).isSome) :
    ∃ items, t.read? path = some (.array items) ∧ i < items.length ∧
      (t.extract (path ++ [.index i])).1.read? path = some (.array (items.eraseIdx i)) ∧
      ∀ k qs, (t.extract (path ++ [.index i])).1.read? (path ++ .index k :: qs) =
        t.read? (path ++ .index (if k < i then k else k + 1) :: qs) := by
  obtain ⟨x, hx⟩ := Option.isSome_iff_exists.mp hx
  rw [read?_append] at hx
  obtain ⟨node, hnode, hx⟩ := Option.bind_eq_some_iff.mp hx
  obtain ⟨child, hchild, -⟩ := Option.bind_eq_some_iff.mp hx
  have hread (qs : List Step) : (t.extract (path ++ [.index i])).1.read? (path ++ qs) =
      (node.withoutChild (.index i)).read? qs := by
    rw [read?_extract_append hnode (List.cons_ne_nil _ _), extract_singleton hchild]
  cases node with
  | array items =>
    refine ⟨items, hnode, (List.getElem?_eq_some_iff.mp hchild).1, ?_, fun k qs => ?_⟩
    · have hhere := hread []
      rwa [List.append_nil] at hhere
    · rw [hread, read?_append, hnode, Option.bind_some, read?, read?, child?_withoutChild_index]
  | _ => cases hchild

/-! ### Putting a member back -/

theorem putItem_of_lt {items : List Tree} {i : Nat} (h : i < items.length) (new : Tree) :
    putItem items i new = items.set i new := by
  rw [putItem, Nat.sub_eq_zero_of_le h, List.replicate_zero, List.append_nil]

/-- Where there is a child, to put another one is to replace it. -/
theorem putChild_withChild (ht : t.WellFormed) (h : t.child? s = some child) (first second : Tree) :
    (t.withChild first s).putChild second s = t.withChild second s := by
  cases s with
  | key name =>
    cases t with
    | object members =>
      exact congrArg Tree.object (Keyed.insert_replace (Option.isSome_of_mem h) ht.1 first second)
    | _ => cases h
  | index i =>
    cases t with
    | array items =>
      have hi : i < (items.set i first).length := by
        rw [List.length_set]
        exact (List.getElem?_eq_some_iff.mp h).1
      refine congrArg Tree.array ((putItem_of_lt hi second).trans ?_)
      exact List.set_set first
    | _ => cases h

theorem putChild_withoutChild_key (ht : t.WellFormed) {name : String}
    (h : t.child? (.key name) = some child) :
    (t.withoutChild (.key name)).putChild child (.key name) = t := by
  cases t with
  | object members => exact congrArg Tree.object (Keyed.insert_erase ht.1 h)
  | _ => cases h

/-- A member that is put back where it was taken out restores the tree. -/
theorem place_extract (ht : t.WellFormed) {path : List Step} {name : String}
    (hx : t.read? (path ++ [.key name]) = some node) :
    (t.extract (path ++ [.key name])).1.place node (path ++ [.key name]) = t := by
  induction path generalizing t with
  | nil =>
    obtain ⟨child, hchild, hx⟩ := Option.bind_eq_some_iff.mp hx
    obtain rfl := Option.some.inj hx
    rw [List.nil_append, extract_singleton hchild]
    exact putChild_withoutChild_key ht hchild
  | cons s path ih =>
    obtain ⟨child, hchild, hx⟩ := Option.bind_eq_some_iff.mp hx
    have hrest : path ++ [.key name] ≠ [] := by simp
    rw [List.cons_append, extract_cons hchild hrest, place, childOrNull,
      child?_withChild_self hchild, Option.getD_some, ih (ht.child? hchild) hx,
      putChild_withChild ht hchild, withChild_eq_self hchild]

/-! ### The whole of it -/

/--
A node has been taken out at the end of the steps and nothing else: `remaining` is what is left of
the tree, and `taken` is the node, if there was one.
-/
structure TakesOut (t : Tree) (steps : List Step) (remaining : Tree) (taken : Option Tree) :
    Prop where
  taken_eq : taken = t.read? steps
  eq_self : taken = none → remaining = t
  root : steps = [] → remaining = .null
  /-- Whoever turns off before the last step, or at the last one if that leads to a member, finds
  what was there. -/
  beside : ∀ common s ps r qs, steps = common ++ s :: ps → s ≠ r → (ps = [] → s.isKey) →
    remaining.read? (common ++ r :: qs) = t.read? (common ++ r :: qs)
  member : ∀ path name, steps = path ++ [.key name] → remaining.read? steps = none
  element : ∀ path i, steps = path ++ [.index i] → taken.isSome →
    ∃ items left, t.read? path = some (.array items) ∧
      remaining.read? path = some (.array left) ∧ left.length + 1 = items.length ∧
      ∀ qs, (∀ k < i, remaining.read? (path ++ .index k :: qs) =
          t.read? (path ++ .index k :: qs)) ∧
        ∀ k ≥ i, remaining.read? (path ++ .index k :: qs) =
          t.read? (path ++ .index (k + 1) :: qs)

/-- Extraction takes out the node at the path and nothing else, also if the tree is changed on the
way. -/
theorem extract_takesOut (ht : t.WellFormed) (steps : List Step) :
    t.TakesOut steps (t.extract steps).1 (t.extract steps).2 ∧ t.take steps = t.extract steps := by
  refine ⟨?_, take_eq_extract t steps⟩
  refine ⟨snd_extract t steps, extract_eq_self, ?_, ?_, ?_, ?_⟩
  · rintro rfl
    rfl
  · rintro common s ps r qs rfl hne hlast
    exact read?_extract_of_ne hne hlast t
  · rintro path name rfl
    exact read?_extract_key ht path name
  · rintro path i rfl htaken
    rw [snd_extract] at htaken
    obtain ⟨items, hitems, hi, hleft, hread⟩ := exists_read?_extract_index htaken
    refine ⟨items, items.eraseIdx i, hitems, hleft, ?_, fun qs => ⟨fun k hk => ?_, fun k hk => ?_⟩⟩
    · rw [List.length_eraseIdx_of_lt hi]
      omega
    · rw [hread, if_pos hk]
    · rw [hread, if_neg (Nat.not_lt.mpr hk)]

/-- The last element moves up; a search that fails below the element changes nothing. -/
theorem extract_takesOut_list :
    let t := object [("a", array [text "x", object [("k", .null)], text "y"]), ("b", bool true)]
    let remaining := (t.extract [.key "a", .index 1]).1
    t.WellFormed ∧ remaining.read? [.key "a", .index 1] = some (text "y") ∧
      remaining.read? [.key "b"] = some (bool true) ∧
      t.take [.key "a", .index 1, .key "k", .index 0] = (t, none) := by
  intro t remaining
  have ht : t.WellFormed := by
    refine ⟨?_, ⟨trivial, ⟨List.pairwise_singleton _ _, trivial, trivial⟩, trivial, trivial⟩,
      trivial, trivial⟩
    unfold Keyed.Sorted
    decide
  obtain ⟨hout, -⟩ := extract_takesOut ht [.key "a", .index 1]
  obtain ⟨hfail, htake⟩ := extract_takesOut ht [.key "a", .index 1, .key "k", .index 0]
  obtain ⟨items, left, -, -, -, hread⟩ := hout.element [.key "a"] 1 rfl rfl
  refine ⟨ht, (hread []).2 1 (Nat.le_refl 1), ?_, ?_⟩
  · exact hout.beside [] (.key "a") [.index 1] (.key "b") [] rfl (by decide) fun _ => rfl
  · rw [htake]
    exact Prod.ext (hfail.eq_self rfl) rfl

end Tree

end EventPipeline
