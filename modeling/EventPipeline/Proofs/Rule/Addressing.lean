import EventPipeline.Proofs.Path.Text
import EventPipeline.Proofs.Rule.Removal
import EventPipeline.Proofs.Tree.Extract

/-!
What a key addresses. A delete looks for it among the trails that it writes on its way through the
tree, an extraction reads it as a path and follows the steps. Where every step is spelled so that
it can be told from its neighbours, reading inverts writing (`parse_trailOf`), so that both find
the same node. Main statements: to prune a tree in which one node is selected is to take that node
out (`prune_eq_extract`), and a delete without a filter leaves what the extraction leaves
(`Delete.transform_eq_extract`).
-/

namespace EventPipeline

open EventPipeline.Path (Step)

section Kept

variable {α : Type}

/-- A filter that keeps every element as it is. -/
theorem filterMap_zipIdx_eq_self {g : Nat → α → Option α} {l : List α} {n : Nat}
    (h : ∀ j x, l[j]? = some x → g (n + j) x = some x) :
    ((l.zipIdx n).filterMap fun e => g e.2 e.1) = l := by
  induction l generalizing n with
  | nil => rfl
  | cons a l ih =>
    have hrest : ∀ j x, l[j]? = some x → g (n + 1 + j) x = some x := by
      intro j x hx
      rw [Nat.add_right_comm]
      exact h (j + 1) x hx
    have ha : g n a = some a := h 0 a rfl
    rw [List.zipIdx_cons, List.filterMap_cons, ha, ih hrest]

/-- A filter that keeps every element but one as it is. -/
theorem filterMap_zipIdx_of_ne {g : Nat → α → Option α} {l : List α} {n i : Nat} {a : α}
    (hi : l[i]? = some a) (h : ∀ j x, j ≠ i → l[j]? = some x → g (n + j) x = some x) :
    ((l.zipIdx n).filterMap fun e => g e.2 e.1) =
      l.take i ++ (g (n + i) a).toList ++ l.drop (i + 1) := by
  induction l generalizing n i with
  | nil => cases hi
  | cons c l ih =>
    rw [List.zipIdx_cons, List.filterMap_cons]
    cases i with
    | zero =>
      obtain rfl := Option.some.inj hi
      have hrest : ((l.zipIdx (n + 1)).filterMap fun e => g e.2 e.1) = l := by
        refine filterMap_zipIdx_eq_self fun j x hx => ?_
        rw [Nat.add_right_comm]
        exact h (j + 1) x (Nat.succ_ne_zero j) hx
      rw [hrest, Nat.add_zero]
      cases g n c <;> rfl
    | succ i =>
      have hrest : ∀ j x, j ≠ i → l[j]? = some x → g (n + 1 + j) x = some x := by
        intro j x hj hx
        rw [Nat.add_right_comm]
        exact h (j + 1) x (fun hij => hj (Nat.succ.inj hij)) hx
      have hc : g n c = some c := h 0 c (Nat.succ_ne_zero i).symm rfl
      rw [hc, ih hi hrest, Nat.add_right_comm, Nat.add_assoc]
      rfl

namespace Keyed

variable {g : String → α → Option α} {m : Keyed α} {key : String} {a : α}

theorem filterMap_eq_self (hm : Sorted m) (h : ∀ name x, get? name m = some x → g name x = some x) :
    (m.filterMap fun e => (g e.1 e.2).map (e.1, ·)) = m := by
  refine eq_of_get?_eq (sorted_filterMap hm g) hm fun name => ?_
  rw [get?_filterMap hm]
  cases hx : get? name m with
  | none => rfl
  | some x => exact h name x hx

/-- A filter that keeps every value but the one under the key as it is. -/
theorem get?_filterMap_of_ne (hm : Sorted m)
    (h : ∀ name x, name ≠ key → get? name m = some x → g name x = some x) {name : String}
    (hne : name ≠ key) :
    get? name (m.filterMap fun e => (g e.1 e.2).map (e.1, ·)) = get? name m := by
  rw [get?_filterMap hm]
  cases hx : get? name m with
  | none => rfl
  | some x => exact h name x hne hx

theorem filterMap_eq_erase (hm : Sorted m) (hkey : get? key m = some a) (ha : g key a = none)
    (h : ∀ name x, name ≠ key → get? name m = some x → g name x = some x) :
    (m.filterMap fun e => (g e.1 e.2).map (e.1, ·)) = erase key m := by
  refine eq_of_get?_eq (sorted_filterMap hm g) (sorted_erase hm key) fun name => ?_
  by_cases hne : name = key
  · rw [hne, get?_filterMap hm, hkey, Option.bind_some, ha, get?_erase_self hm]
  · rw [get?_filterMap_of_ne hm h hne, get?_erase_of_ne hne]

theorem filterMap_eq_replace (hm : Sorted m) (hkey : get? key m = some a) {b : α}
    (ha : g key a = some b)
    (h : ∀ name x, name ≠ key → get? name m = some x → g name x = some x) :
    (m.filterMap fun e => (g e.1 e.2).map (e.1, ·)) = replace key b m := by
  refine eq_of_get?_eq (sorted_filterMap hm g) (sorted_replace hm key b) fun name => ?_
  by_cases hne : name = key
  · rw [hne, get?_filterMap hm, hkey, Option.bind_some, ha,
      get?_replace_self (Option.isSome_of_mem hkey)]
  · rw [get?_filterMap_of_ne hm h hne, get?_replace_of_ne hne]

end Keyed

end Kept

namespace Tree

theorem sizeOf_child?_lt {t child : Tree} {s : Step} (h : t.child? s = some child) :
    sizeOf child < sizeOf t := by
  cases s with
  | key name =>
    cases t with
    | object members =>
      have := List.sizeOf_lt_of_mem (Keyed.mem_of_get? h)
      simp only [Prod.mk.sizeOf_spec, object.sizeOf_spec] at this ⊢
      omega
    | _ => cases h
  | index i =>
    cases t with
    | array items =>
      have := List.sizeOf_lt_of_mem (List.mem_of_getElem? h)
      simp only [array.sizeOf_spec]
      omega
    | _ => cases h

/-- All members have names and all elements have indices that can be told from what stands around
them in a trail. -/
inductive Addressable (separator : Char) : Tree → Prop where
  | null : Addressable separator .null
  | bool (b : Bool) : Addressable separator (.bool b)
  | number (n : Number) : Addressable separator (.number n)
  | text (s : String) : Addressable separator (.text s)
  | array {items : List Tree} : items.length < Text.countLimit →
    (∀ t ∈ items, Addressable separator t) → Addressable separator (.array items)
  | object {members : List (String × Tree)} :
    (∀ m ∈ members, m.1 ≠ "" ∧ separator ∉ m.1.toList ∧ '[' ∉ m.1.toList) →
    (∀ m ∈ members, Addressable separator m.2) → Addressable separator (.object members)

theorem Addressable.child? {separator : Char} {t child : Tree} {s : Step}
    (h : t.Addressable separator) (hs : t.child? s = some child) :
    s.Legible separator ∧ child.Addressable separator := by
  cases s with
  | key name =>
    cases h with
    | object hnames hm =>
      have hmem := Keyed.mem_of_get? hs
      obtain ⟨hne, hsep, hopen⟩ := hnames _ hmem
      exact ⟨.key hne hsep hopen, hm _ hmem⟩
    | _ => cases hs
  | index i =>
    cases h with
    | array hlen hi =>
      have hlt : i < _ := (List.getElem?_eq_some_iff.mp hs).1
      exact ⟨.index (Nat.lt_trans hlt hlen), hi _ (List.mem_of_getElem? hs)⟩
    | _ => cases hs

theorem Addressable.legible {separator : Char} {t : Tree} (h : t.Addressable separator)
    {position : List Step} (hp : (t.read? position).isSome) :
    ∀ s ∈ position, s.Legible separator := by
  induction position generalizing t with
  | nil => exact nofun
  | cons s rest ih =>
    obtain ⟨node, hnode⟩ := Option.isSome_iff_exists.mp hp
    obtain ⟨child, hchild, hnode⟩ := Option.bind_eq_some_iff.mp hnode
    obtain ⟨hs, hbelow⟩ := h.child? hchild
    exact List.forall_mem_cons.mpr ⟨hs, ih hbelow (Option.isSome_of_mem hnode)⟩

end Tree

namespace Delete

namespace Selection

variable {c : Selection} {trail : String} {t child : Tree} {s : Step}

/-! ### Trees in which nothing is selected, or one node -/

theorem pruned_eq_self (ht : t.WellFormed)
    (h : ∀ s child, t.child? s = some child →
      c.prune (stepTrail c.separator trail s) child = some child) : c.pruned trail t = t := by
  cases t with
  | array items =>
    refine congrArg Tree.array ?_
    refine filterMap_zipIdx_eq_self (g := fun j => c.prune (elementTrail trail j)) fun j x hx => ?_
    rw [Nat.zero_add]
    exact h (.index j) x hx
  | object members =>
    exact congrArg Tree.object (Keyed.filterMap_eq_self ht.1 fun name x hx => h (.key name) x hx)
  | _ => rfl

section Single

variable (ht : t.WellFormed) (hs : t.child? s = some child)
  (hother : ∀ r other, r ≠ s → t.child? r = some other →
    c.prune (stepTrail c.separator trail r) other = some other)

include ht hs hother

/-- To prune a node of which one child is selected is to take that child out. -/
theorem pruned_eq_withoutChild (hnone : c.prune (stepTrail c.separator trail s) child = none) :
    c.pruned trail t = t.withoutChild s := by
  cases s with
  | key name =>
    cases t with
    | object members =>
      refine congrArg Tree.object (Keyed.filterMap_eq_erase
        (g := fun other => c.prune (memberTrail c.separator trail other)) ht.1 hs hnone ?_)
      exact fun other x hne hx => hother (.key other) x (mt Step.key.inj hne) hx
    | _ => cases hs
  | index i =>
    cases t with
    | array items =>
      refine congrArg Tree.array ((filterMap_zipIdx_of_ne
        (g := fun j => c.prune (elementTrail trail j)) hs fun j x hne hx => ?_).trans ?_)
      · rw [Nat.zero_add]
        exact hother (.index j) x (mt Step.index.inj hne) hx
      · have hnone : c.prune (elementTrail trail i) child = none := hnone
        rw [Nat.zero_add, hnone, List.eraseIdx_eq_take_drop_succ, Option.toList_none,
          List.append_nil]
    | _ => cases hs

/-- What remains of one child is put in its place. -/
theorem pruned_eq_withChild {new : Tree}
    (hsome : c.prune (stepTrail c.separator trail s) child = some new) :
    c.pruned trail t = t.withChild new s := by
  cases s with
  | key name =>
    cases t with
    | object members =>
      refine congrArg Tree.object (Keyed.filterMap_eq_replace
        (g := fun other => c.prune (memberTrail c.separator trail other)) ht.1 hs hsome ?_)
      exact fun other x hne hx => hother (.key other) x (mt Step.key.inj hne) hx
    | _ => cases hs
  | index i =>
    cases t with
    | array items =>
      refine congrArg Tree.array ((filterMap_zipIdx_of_ne
        (g := fun j => c.prune (elementTrail trail j)) hs fun j x hne hx => ?_).trans ?_)
      · rw [Nat.zero_add]
        exact hother (.index j) x (mt Step.index.inj hne) hx
      · have hsome : c.prune (elementTrail trail i) child = some new := hsome
        have hi : i < items.length := (List.getElem?_eq_some_iff.mp hs).1
        rw [Nat.zero_add, hsome, List.set_eq_take_append_cons_drop, if_pos hi, Option.toList_some,
          List.append_assoc, List.singleton_append]
    | _ => cases hs

end Single

/-- A tree in which nothing is selected stays as it is. -/
theorem prune_eq_self (ht : t.WellFormed) (h : ∀ position, ¬ c.hits trail t position) :
    c.prune trail t = some t := by
  induction hsize : sizeOf t using Nat.strong_induction_on generalizing trail t with
  | _ n ih =>
    subst hsize
    refine prune_eq_some_iff.mpr ⟨h [], pruned_eq_self ht fun s child hchild => ?_⟩
    refine ih _ (Tree.sizeOf_child?_lt hchild) (ht.child? hchild) (fun position => ?_) rfl
    rw [← hits_cons hchild]
    exact h (s :: position)

/-- To prune a tree in which one node below the root is selected is to take that node out. -/
theorem prune_eq_extract (ht : t.WellFormed) {path : List Step} (hpath : path ≠ [])
    (h : ∀ position, c.hits trail t position ↔ position = path ∧ (t.read? path).isSome) :
    c.prune trail t = some (t.extract path).1 := by
  induction path generalizing trail t with
  | nil => exact absurd rfl hpath
  | cons s rest ih =>
    have hroot : ¬ c.hits trail t [] := fun hroot => hpath ((h []).mp hroot).1.symm
    cases hchild : t.child? s with
    | none =>
      have hnone : t.read? (s :: rest) = none := by rw [Tree.read?, hchild, Option.bind_none]
      rw [Tree.extract_of_child?_eq_none hchild]
      refine prune_eq_self ht fun position hhit => ?_
      rw [h, hnone] at hhit
      cases hhit.2
    | some child =>
      have hother : ∀ r other, r ≠ s → t.child? r = some other →
          c.prune (stepTrail c.separator trail r) other = some other := by
        intro r other hne hr
        refine prune_eq_self (ht.child? hr) fun position hhit => ?_
        rw [← hits_cons hr, h] at hhit
        exact hne (List.cons.inj hhit.1).1
      have hread : t.read? (s :: rest) = child.read? rest := by
        rw [Tree.read?, hchild, Option.bind_some]
      have hbelow : ∀ position, c.hits (stepTrail c.separator trail s) child position ↔
          position = rest ∧ (child.read? rest).isSome := by
        intro position
        rw [← hits_cons hchild, h, hread, List.cons_inj_right]
      by_cases hrest : rest = []
      · subst hrest
        have hnone : c.prune (stepTrail c.separator trail s) child = none := by
          rw [prune_eq, if_pos ((hbelow []).mpr ⟨rfl, rfl⟩)]
        rw [prune_eq, if_neg hroot, Tree.extract_singleton hchild,
          pruned_eq_withoutChild ht hchild hother hnone]
      · have hsome := ih (ht.child? hchild) hrest hbelow
        rw [prune_eq, if_neg hroot, Tree.extract_cons hchild hrest,
          pruned_eq_withChild ht hchild hother hsome]

end Selection

/-! ### Trails read as paths -/

section Trails

variable {separator : Char} (hopen : separator ≠ '[') (hclose : separator ≠ ']')
  (hdigit : separator.isDigit = false)

include hopen hclose hdigit

/-- The trail of a child is read as the path of its parent and one more step. -/
theorem parse_stepTrail {s : Step} (hs : s.Legible separator) (trail : String) :
    (Path.parse (stepTrail (String.singleton separator) trail s)
      (String.singleton separator)).steps =
      (Path.parse trail (String.singleton separator)).steps ++ [s] := by
  cases hs with
  | key hne hsep hbracket =>
    rw [stepTrail, memberTrail]
    split
    · next htrail =>
      rw [htrail, Path.parse_empty, List.nil_append]
      exact Path.parse_name hne hsep hbracket
    · exact Path.parse_append_key trail hne hsep hbracket
  | index hi => exact Path.parse_append_index trail hi hopen hclose hdigit

/-- Reading a trail gives the position that it was written for. -/
theorem parse_trailOf {position : List Step} (h : ∀ s ∈ position, s.Legible separator)
    (trail : String) :
    (Path.parse (trailOf (String.singleton separator) trail position)
      (String.singleton separator)).steps =
      (Path.parse trail (String.singleton separator)).steps ++ position := by
  induction position generalizing trail with
  | nil => rw [List.append_nil]; rfl
  | cons s rest ih =>
    obtain ⟨hs, hrest⟩ := List.forall_mem_cons.mp h
    rw [trailOf, List.foldl_cons]
    change (Path.parse (trailOf _ (stepTrail _ trail s) rest) _).steps = _
    rw [ih hrest, parse_stepTrail hopen hclose hdigit hs, List.append_assoc, List.singleton_append]

/-- The nodes that have the trail of a path are those that the path leads to. -/
theorem hits_iff {t : Tree} (ht : t.Addressable separator) {c : Selection}
    (hfilter : c.filter = none) (hsep : c.separator = String.singleton separator) (hne : c.key ≠ "")
    (hkey : trailOf c.separator "" (Path.parse c.key c.separator).steps = c.key)
    (position : List Step) : c.hits "" t position ↔
      position = (Path.parse c.key c.separator).steps ∧
        (t.read? (Path.parse c.key c.separator).steps).isSome := by
  constructor
  · intro hhit
    have hposition : (t.read? position).isSome := by
      obtain ⟨node, hnode, -⟩ := (Option.any_eq_true _ _).mp hhit
      exact Option.isSome_of_mem hnode
    have hparse := parse_trailOf hopen hclose hdigit (ht.legible hposition) ""
    rw [Path.parse_empty, List.nil_append, ← hsep, ← Selection.key_eq_of_hits hne hhit] at hparse
    rw [hparse]
    exact ⟨rfl, hposition⟩
  · rintro ⟨rfl, hsome⟩
    obtain ⟨node, hnode⟩ := Option.isSome_iff_exists.mp hsome
    rw [Selection.hits, hnode, hkey]
    simp [Selection.selects, selects, hfilter]

end Trails

/--
A delete without a filter leaves what an extraction at the path of its key leaves, when the key is
the trail of that path and every position of the tree has a trail that can be read.
-/
theorem transform_eq_extract {separator : Char} (hopen : separator ≠ '[')
    (hclose : separator ≠ ']') (hdigit : separator.isDigit = false) {t : Tree} (ht : t.WellFormed)
    (haddressable : t.Addressable separator) {d : Delete}
    (hsep : d.separator = String.singleton separator) (hvalue : d.value = "")
    (hkey : trailOf d.separator "" (Path.parse d.key d.separator).steps = d.key)
    (event : String) (shared : Shared) :
    (d.transform event t).run shared =
      ((t.extract (Path.parse d.key d.separator).steps).1, shared) := by
  have hrun : (d.transform event t).run shared =
      ((Delete.prune d.key d.separator none "" t).getD .null, shared) := by
    simp only [transform, filterFor, if_pos hvalue]
    rfl
  rw [hrun]
  refine Prod.ext ?_ rfl
  by_cases hne : d.key = ""
  · -- The empty key selects the root, and the empty text is the path that leads there.
    rw [hne, hsep, Path.parse_empty, Tree.extract]
    cases t <;> simp [prune, selects]
  · let c : Selection := ⟨d.key, d.separator, none⟩
    have hpath : (Path.parse d.key d.separator).steps ≠ [] := by
      intro hnil
      rw [hnil] at hkey
      exact hne hkey.symm
    have hhits (position : List Step) : c.hits "" t position ↔
        position = (Path.parse d.key d.separator).steps ∧
          (t.read? (Path.parse d.key d.separator).steps).isSome := by
      have hkey : trailOf c.separator "" (Path.parse c.key c.separator).steps = c.key := hkey
      exact hits_iff hopen hclose hdigit haddressable rfl hsep hne hkey position
    exact congrArg (·.getD .null) (Selection.prune_eq_extract ht hpath hhits)

/-- A member of an element of a list in a list; the name of the list ends with a bracket. -/
theorem transform_eq_extract_element :
    let x := Tree.object [("b", .bool true)]
    let t := Tree.object [("a]", .array [.null, .array [.text "s", x]])]
    let d : Delete := ⟨"a][1][1]/b", "/", ""⟩
    let path : List Step := [.key "a]", .index 1, .index 1, .key "b"]
    (t.WellFormed ∧ t.Addressable '/' ∧ (Path.parse d.key d.separator).steps = path ∧
      trailOf d.separator "" path = d.key) ∧
    (d.transform "evt" t).run .fresh = ((t.extract path).1, .fresh) := by
  intro x t d path
  have hx : x.WellFormed := ⟨List.pairwise_singleton _ _, trivial, trivial⟩
  have ht : t.WellFormed :=
    ⟨List.pairwise_singleton _ _, ⟨trivial, ⟨trivial, hx, trivial⟩, trivial⟩, trivial⟩
  have hmember {name : String} {y : Tree}
      (hname : name ≠ "" ∧ '/' ∉ name.toList ∧ '[' ∉ name.toList) (hy : y.Addressable '/') :
      (Tree.object [(name, y)]).Addressable '/' :=
    .object (fun _ hm => List.mem_singleton.mp hm ▸ hname) fun _ hm => List.mem_singleton.mp hm ▸ hy
  have hpair {y z : Tree} (hy : y.Addressable '/') (hz : z.Addressable '/') :
      (Tree.array [y, z]).Addressable '/' :=
    .array (show 2 < Text.countLimit by decide)
      (List.forall_mem_cons.mpr ⟨hy, fun _ hm => List.mem_singleton.mp hm ▸ hz⟩)
  have haddressable : t.Addressable '/' :=
    hmember (by decide) (hpair .null (hpair (.text "s") (hmember (by decide) (.bool true))))
  have hpath : (Path.parse d.key d.separator).steps = path := by decide +kernel
  have hkey : trailOf d.separator "" path = d.key := by decide +kernel
  have hsep : d.separator = String.singleton '/' := rfl
  have h := transform_eq_extract (by decide) (by decide) (by decide) ht haddressable hsep rfl
    (hpath ▸ hkey) "evt" .fresh
  rw [hpath] at h
  exact ⟨⟨ht, haddressable, hpath, hkey⟩, h⟩

end Delete

end EventPipeline
