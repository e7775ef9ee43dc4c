import EventPipeline.Json.Reader
import EventPipeline.Proofs.Json.Document
import EventPipeline.Proofs.Json.Reread

/-!
Trees are read from their texts as long as they do not nest too deep, up to the doubles in them
(`read_text`), and what is read from a text is a sound tree that does not (`sound_of_read`).
-/

namespace EventPipeline

open Json

namespace Tree

/-- Trees as they are read from texts: objects list their members in ascending order of their
names, and no number is infinite. -/
inductive Sound : Tree → Prop where
  | null : Sound .null
  | bool (b : Bool) : Sound (.bool b)
  | number {n : Number} : n.IsFinite → Sound (.number n)
  | text (s : String) : Sound (.text s)
  | array {items : List Tree} : (∀ t ∈ items, Sound t) → Sound (.array items)
  | object {members : List (String × Tree)} :
    Keyed.Sorted members → (∀ m ∈ members, Sound m.2) → Sound (.object members)

theorem Sound.finite {t : Tree} (h : t.Sound) : t.Finite := by
  induction h with
  | null => exact .null
  | bool b => exact .bool b
  | number hn => exact .number hn
  | text s => exact .text s
  | array _ ih => exact .array ih
  | object _ _ ih => exact .object ih

end Tree

namespace Json

mutual
/-- A tree is found in its document, with its doubles as they are read, when there is room for its
levels. -/
theorem tree?_node {t : Tree} (ht : t.Sound) (room : Nat) :
    t.node.tree? room = if t.depth ≤ room then some t.reread else none := by
  cases ht with
  | null => rfl
  | bool b => rfl
  | number hn => rw [Tree.node, Node.tree?, Number.number?_numeral hn]; rfl
  | text s => rfl
  | @array items hitems =>
    rw [Tree.node, Node.tree?, Tree.depth]
    cases room with
    | zero => simp
    | succ room =>
      have hroom : (room + 1 = 0 || !true) = false := rfl
      rw [hroom, if_neg Bool.false_ne_true, Nat.add_sub_cancel, itemTrees?_itemNodes hitems]
      by_cases hd : Tree.itemsDepth items ≤ room
      · rw [if_pos hd, if_pos (by omega)]
        rfl
      · rw [if_neg hd, if_neg (by omega)]
        rfl
  | @object members hsorted hmembers =>
    rw [Tree.node, Node.tree?, Tree.depth]
    cases room with
    | zero => simp
    | succ room =>
      have hroom : (room + 1 = 0 || !true) = false := rfl
      rw [hroom, if_neg Bool.false_ne_true, Nat.add_sub_cancel,
        memberTrees?_memberNodes hmembers room [] (Tree.sorted_rereadMembers hsorted)]
      by_cases hd : Tree.membersDepth members ≤ room
      · rw [if_pos hd, if_pos (by omega)]
        rfl
      · rw [if_neg hd, if_neg (by omega)]
        rfl

theorem itemTrees?_itemNodes {items : List Tree} (ht : ∀ t ∈ items, t.Sound) (room : Nat)
    (done : List Tree) :
    itemTrees? room done (Tree.itemNodes items) =
      if Tree.itemsDepth items ≤ room then some (done.reverse ++ Tree.rereadItems items)
      else none := by
  cases items with
  | nil => simp [Tree.itemNodes, itemTrees?, Tree.itemsDepth, Tree.rereadItems]
  | cons t ts =>
    rw [Tree.itemNodes, itemTrees?, tree?_node (ht t List.mem_cons_self), Tree.itemsDepth]
    by_cases hd : t.depth ≤ room
    · have hts := itemTrees?_itemNodes (fun s hs => ht s (List.mem_cons_of_mem _ hs)) room
        (t.reread :: done)
      simp only [hd, if_true, hts, Nat.max_le, true_and, List.reverse_cons, List.append_assoc,
        List.singleton_append, Tree.rereadItems]
    · rw [if_neg hd, if_neg fun h => hd (Nat.max_le.mp h).1]

theorem memberTrees?_memberNodes {members : List (String × Tree)} (ht : ∀ m ∈ members, m.2.Sound)
    (room : Nat) (done : Keyed Tree) (hs : Keyed.Sorted (done ++ Tree.rereadMembers members)) :
    memberTrees? room done (Tree.memberNodes members) =
      if Tree.membersDepth members ≤ room then some (done ++ Tree.rereadMembers members)
      else none := by
  cases members with
  | nil => simp [Tree.memberNodes, memberTrees?, Tree.membersDepth, Tree.rereadMembers]
  | cons m ms =>
    obtain ⟨name, t⟩ := m
    have hlt : ∀ e ∈ done, e.1 < name := fun e he =>
      (List.pairwise_append.mp hs).2.2 e he _ List.mem_cons_self
    rw [Tree.memberNodes, memberTrees?, tree?_node (t := t) (ht _ List.mem_cons_self),
      Tree.membersDepth]
    by_cases hd : t.depth ≤ room
    · have hms := memberTrees?_memberNodes (fun s hs => ht s (List.mem_cons_of_mem _ hs)) room
        (done ++ [(name, t.reread)]) (by rwa [List.append_assoc])
      simp only [hd, if_true, Keyed.insert_of_lt hlt, hms, Nat.max_le, true_and,
        List.append_assoc, List.singleton_append, Tree.rereadMembers]
    · rw [if_neg hd, if_neg fun h => hd (Nat.max_le.mp h).1]
end

/-- A text is read back as its tree, with the doubles as they are read, when it does not nest too
deep. -/
theorem read_text {t : Tree} (ht : t.Sound) :
    read (text t) = if t.depth ≤ nestingLimit then .ok t.reread else .error .malformed := by
  rw [read, read?, toList_text ht.finite, Document.ofChars_chars ht.finite, tree?_node ht]
  by_cases hd : t.depth ≤ nestingLimit
  · rw [if_pos hd, if_pos hd]
    rfl
  · rw [if_neg hd, if_neg hd]
    rfl

theorem fromUTF8?_toUTF8 (s : String) : String.fromUTF8? s.toUTF8 = some s := dif_pos s.isValidUTF8

theorem decode_encode {t : Tree} (ht : t.Sound) :
    decode (encode t) = if t.depth ≤ nestingLimit then .ok t.reread else .error .malformed := by
  rw [decode, encode, fromUTF8?_toUTF8]
  exact read_text ht

mutual
/-- Trees that are read are sound, and they nest no deeper than there is room. -/
theorem sound_of_tree? {n : Node} {room : Nat} {t : Tree} (h : n.tree? room = some t) :
    t.Sound ∧ t.depth ≤ room := by
  cases n with
  | null =>
    cases h
    exact ⟨.null, Nat.zero_le _⟩
  | bool b =>
    cases h
    exact ⟨.bool b, Nat.zero_le _⟩
  | numeral n =>
    obtain ⟨m, hm, rfl⟩ := Option.map_eq_some_iff.mp h
    exact ⟨.number (Numeral.isFinite_of_number? hm), Nat.zero_le _⟩
  | text s =>
    obtain ⟨s, rfl, rfl⟩ := Option.map_eq_some_iff.mp h
    exact ⟨.text s, Nat.zero_le _⟩
  | array items closed =>
    rw [Node.tree?] at h
    split at h
    · cases h
    · next hroom =>
      obtain ⟨ts, hts, rfl⟩ := Option.map_eq_some_iff.mp h
      have hsound := sound_of_itemTrees? (fun _ hm => by cases hm) hts
      refine ⟨.array fun t ht => (hsound t ht).1, ?_⟩
      have hdepth := Tree.itemsDepth_le_iff.mpr fun t ht => (hsound t ht).2
      rw [Tree.depth]
      simp only [Bool.or_eq_true, decide_eq_true_eq, not_or] at hroom
      omega
  | object members closed =>
    rw [Node.tree?] at h
    split at h
    · cases h
    · next hroom =>
      obtain ⟨ms, hms, rfl⟩ := Option.map_eq_some_iff.mp h
      obtain ⟨hsorted, hsound⟩ := sound_of_memberTrees? .nil (fun _ hm => by cases hm) hms
      refine ⟨.object hsorted fun m hm => (hsound m hm).1, ?_⟩
      have hdepth := Tree.membersDepth_le_iff.mpr fun m hm => (hsound m hm).2
      rw [Tree.depth]
      simp only [Bool.or_eq_true, decide_eq_true_eq, not_or] at hroom
      omega
  | broken => cases h

theorem sound_of_itemTrees? {items : List Node} {room : Nat} {done ts : List Tree}
    (hd : ∀ t ∈ done, t.Sound ∧ t.depth ≤ room) (h : itemTrees? room done items = some ts) :
    ∀ t ∈ ts, t.Sound ∧ t.depth ≤ room := by
  cases items with
  | nil =>
    cases h
    exact fun t ht => hd t (List.mem_reverse.mp ht)
  | cons n ns =>
    rw [itemTrees?] at h
    split at h
    · next t ht =>
      refine sound_of_itemTrees? (fun s hs => ?_) h
      rcases List.mem_cons.mp hs with rfl | hs
      · exact sound_of_tree? ht
      · exact hd s hs
    · cases h

theorem sound_of_memberTrees? {members : List (Option String × Node)} {room : Nat}
    {done ms : Keyed Tree} (hs : Keyed.Sorted done) (hd : ∀ m ∈ done, m.2.Sound ∧ m.2.depth ≤ room)
    (h : memberTrees? room done members = some ms) :
    Keyed.Sorted ms ∧ ∀ m ∈ ms, m.2.Sound ∧ m.2.depth ≤ room := by
  cases members with
  | nil =>
    cases h
    exact ⟨hs, hd⟩
  | cons m ns =>
    obtain ⟨name, n⟩ := m
    cases name with
    | none => cases h
    | some name =>
      rw [memberTrees?] at h
      split at h
      · next t ht =>
        refine sound_of_memberTrees? (Keyed.sorted_insert hs name t) (fun m hm => ?_) h
        rcases Keyed.mem_insert hm with rfl | hm
        · exact sound_of_tree? ht
        · exact hd m hm
      · cases h
end

theorem sound_of_read {s : String} {t : Tree} (h : read s = .ok t) :
    t.Sound ∧ t.depth ≤ nestingLimit := by
  rw [read] at h
  split at h
  · next hr =>
    cases h
    exact sound_of_tree? (Option.filter_eq_some_iff.mp hr).1
  · cases h

theorem sound_of_decode {bytes : ByteArray} {t : Tree} (h : decode bytes = .ok t) :
    t.Sound ∧ t.depth ≤ nestingLimit := by
  rw [decode] at h
  split at h
  · exact sound_of_read h
  · cases h

end Json

end EventPipeline
