import EventPipeline.Proofs.Json.Typed

/-!
Reading the record that an object was written for. Members that are fields fill a record one after
the other (`Schema.Fills`); with distinct names they are read as they come, and no required field
is missed (`Json.foldMembers_fills`, `Json.asObject_fills`). Maps of trees are read back, up to the
doubles in them (`Json.asMap_node`).
-/

namespace EventPipeline

open Json

namespace Tree

theorem memberNodes_append (ms ns : List (String × Tree)) :
    memberNodes (ms ++ ns) = memberNodes ms ++ memberNodes ns := by
  induction ms with
  | nil => rfl
  | cons m ms ih =>
    obtain ⟨name, t⟩ := m
    rw [List.cons_append, memberNodes, ih, memberNodes, List.cons_append]

theorem names_memberNodes (ms : List (String × Tree)) :
    (memberNodes ms).map Prod.fst = (ms.map Prod.fst).map some := by
  induction ms with
  | nil => rfl
  | cons m ms ih =>
    obtain ⟨name, t⟩ := m
    rw [memberNodes, List.map_cons, ih, List.map_cons, List.map_cons]

end Tree

variable {D : Type}

/-- Each of the members is a field of the record, which it turns into the next one. -/
inductive Schema.Fills (s : Schema Node D) : D → List (String × Tree) → D → Prop where
  | nil (d : D) : Fills s d [] d
  | cons {name : String} {t : Tree} {ms : List (String × Tree)} {field : Field Node D}
    {d d' d'' : D} :
    s.fields.find? (fun field => field.name == name) = some field →
      field.read t.node d = .ok d' → Fills s d' ms d'' → Fills s d ((name, t) :: ms) d''

namespace Schema

variable {s : Schema Node D} {d d' d'' : D}

theorem Fills.append {ms ns : List (String × Tree)} (h : s.Fills d ms d') (h' : s.Fills d' ns d'') :
    s.Fills d (ms ++ ns) d'' := by
  induction h with
  | nil d => exact h'
  | cons hf hr _ ih => exact .cons hf hr (ih h')

theorem Fills.single {name : String} {t : Tree} {field : Field Node D}
    (hf : s.fields.find? (fun field => field.name == name) = some field)
    (hr : field.read t.node d = .ok d') : s.Fills d [(name, t)] d' := .cons hf hr (.nil d')

/-- A field that is not there leaves the record as it is. -/
theorem Fills.optional {α : Type} {name : String} {o : Option α} {write : α → Tree}
    {field : Field Node D} (hf : s.fields.find? (fun field => field.name == name) = some field)
    (hnone : o = none → d = d')
    (hsome : ∀ a, o = some a → field.read (write a).node d = .ok d') :
    s.Fills d (o.map fun a => (name, write a)).toList d' := by
  cases o with
  | none =>
    rw [hnone rfl]
    exact .nil d'
  | some a => exact .single hf (hsome a rfl)

end Schema

namespace Json

variable {s : Schema Node D} {d d' : D} {seen : List String}

theorem foldMembers_append {σ : Type} {read : String → Node → σ → Except Problem σ} (a : σ)
    (ms ns : List (Option String × Node)) :
    Node.foldMembers read a (ms ++ ns) =
      (Node.foldMembers read a ms >>= fun a => Node.foldMembers read a ns) := by
  induction ms generalizing a with
  | nil => rfl
  | cons m ms ih =>
    obtain ⟨name, n⟩ := m
    cases name with
    | none => rfl
    | some name =>
      rw [List.cons_append, Node.foldMembers, Node.foldMembers]
      cases read name n a with
      | error e => rfl
      | ok b => exact ih b

theorem member_field {name : String} {n : Node} {field : Field Node D}
    (hf : s.fields.find? (fun field => field.name == name) = some field) (hseen : name ∉ seen) :
    s.member ⟨seen, d⟩ name n = (field.read n d).map fun d => ⟨name :: seen, d⟩ := by
  rw [Schema.member, hf]
  simp only [List.contains_eq_mem, hseen, decide_false, Bool.false_eq_true, if_false]
  cases field.read n d <;> rfl

theorem foldMembers_fills (seen : List String) {ms : List (String × Tree)} (h : s.Fills d ms d')
    (hnodup : (ms.map Prod.fst).Nodup) (hseen : ∀ m ∈ ms, m.1 ∉ seen) :
    Node.foldMembers (fun name n draft => s.member draft name n) ⟨seen, d⟩ (Tree.memberNodes ms) =
      .ok ⟨(ms.map Prod.fst).reverse ++ seen, d'⟩ := by
  induction h generalizing seen with
  | nil d => rfl
  | @cons name t ms field d d' d'' hf hr _ ih =>
    obtain ⟨hname, hnodup⟩ := List.nodup_cons.mp hnodup
    have hrest : ∀ m ∈ ms, m.1 ∉ name :: seen := fun m hm hmem => by
      rcases List.mem_cons.mp hmem with rfl | hmem
      · exact hname (List.mem_map.mpr ⟨m, hm, rfl⟩)
      · exact hseen m (List.mem_cons_of_mem _ hm) hmem
    rw [Tree.memberNodes, Node.foldMembers, member_field hf (hseen _ List.mem_cons_self), hr]
    refine (ih _ hnodup hrest).trans ?_
    rw [List.map_cons, List.reverse_cons, List.append_assoc]
    rfl

theorem complete_eq (hseen : ∀ field ∈ s.fields, field.required = true → field.name ∈ seen) :
    s.complete ⟨seen, d⟩ = .ok d := by
  have hnone : s.fields.find? (fun field => field.required && !seen.contains field.name) = none := by
    refine List.find?_eq_none.mpr fun field hf hfield => ?_
    simp only [Bool.and_eq_true, List.contains_eq_mem, Bool.not_eq_true', decide_eq_false_iff_not]
      at hfield
    exact hfield.2 (hseen field hf hfield.1)
  rw [Schema.complete, hnone]

/-- Fields that fill a record are read as that record when none is missing. -/
theorem asObject_fills {ms : List (String × Tree)} (h : s.Fills d ms d')
    (hnodup : (ms.map Prod.fst).Nodup)
    (hall : ∀ field ∈ s.fields, field.required = true → field.name ∈ ms.map Prod.fst) :
    (Tree.object ms).node.asObject s d = .ok d' := by
  have hseen : ∀ field ∈ s.fields, field.required = true →
      field.name ∈ (ms.map Prod.fst).reverse ++ [] := fun field hf hr =>
    List.mem_append_left _ (List.mem_reverse.mpr (hall field hf hr))
  rw [Tree.node, Node.asObject, foldMembers_fills [] h hnodup fun _ _ => nofun]
  exact complete_eq hseen

/-- The first field that cannot be read is what is wrong with the object. -/
theorem asObject_error {ms rest : List (String × Tree)} {name : String} {t : Tree}
    {field : Field Node D} {problem : Problem} (h : s.Fills d ms d')
    (hnodup : (ms.map Prod.fst).Nodup) (hname : name ∉ ms.map Prod.fst)
    (hf : s.fields.find? (fun field => field.name == name) = some field)
    (hr : field.read t.node d' = .error problem) :
    (Tree.object (ms ++ (name, t) :: rest)).node.asObject s d = .error problem := by
  have hseen : name ∉ (ms.map Prod.fst).reverse ++ [] := by
    rwa [List.append_nil, List.mem_reverse]
  have hrest : Node.foldMembers (fun name n draft => s.member draft name n)
      ⟨(ms.map Prod.fst).reverse ++ [], d'⟩ (Tree.memberNodes ((name, t) :: rest)) =
        .error problem := by
    rw [Tree.memberNodes, Node.foldMembers, member_field hf hseen, hr]
    rfl
  rw [Tree.node, Node.asObject, Tree.memberNodes_append, foldMembers_append,
    foldMembers_fills [] h hnodup fun _ _ => nofun]
  change (Node.foldMembers _ _ _ >>= fun draft => Node.mustClose true >>= fun _ => _) = _
  rw [hrest]
  rfl

theorem asTree_node {t : Tree} (ht : t.Sound) (room : Nat) :
    t.node.asTree room = if t.depth ≤ room then .ok t.reread else .error .malformed := by
  rw [Node.asTree, tree?_node ht]
  by_cases hd : t.depth ≤ room
  · rw [if_pos hd, if_pos hd]
  · rw [if_neg hd, if_neg hd]

theorem asOptional_node {α : Type} (read : Node → Except Problem α) (t : Tree) :
    t.node.asOptional read = if t.isNull then .ok none else some <$> read t.node := by
  cases t <;> rfl

/-- Trees in order are added to a map behind those that are there. -/
theorem foldMembers_insert {room : Nat} {done members : Keyed Tree}
    (hs : Keyed.Sorted (done ++ Tree.rereadMembers members)) (hm : ∀ m ∈ members, m.2.Sound) :
    Node.foldMembers (fun name n m => return Keyed.insert name (← n.asTree room) m) done
        (Tree.memberNodes members) =
      if Tree.membersDepth members ≤ room then .ok (done ++ Tree.rereadMembers members)
      else .error .malformed := by
  induction members generalizing done with
  | nil =>
    rw [Tree.rereadMembers, List.append_nil]
    exact (if_pos (Nat.zero_le room)).symm
  | cons m members ih =>
    obtain ⟨name, t⟩ := m
    have hlt : ∀ e ∈ done, e.1 < name := fun e he =>
      (List.pairwise_append.mp hs).2.2 e he _ List.mem_cons_self
    have hsorted : Keyed.Sorted ((done ++ [(name, t.reread)]) ++ Tree.rereadMembers members) := by
      rwa [List.append_assoc]
    have hrest := ih hsorted fun x hx => hm x (List.mem_cons_of_mem _ hx)
    rw [Tree.memberNodes, Node.foldMembers, asTree_node (hm _ List.mem_cons_self),
      Tree.membersDepth]
    by_cases hd : t.depth ≤ room
    · rw [if_pos hd]
      change Node.foldMembers _ (Keyed.insert name t.reread done) _ = _
      rw [Keyed.insert_of_lt hlt, hrest, List.append_assoc]
      simp only [Nat.max_le, hd, true_and]
      rfl
    · rw [if_neg hd, if_neg fun h => hd (Nat.max_le.mp h).1]
      rfl

/-- A map of trees is read back when there is room for their levels. -/
theorem asMap_node {members : Keyed Tree} (hs : Keyed.Sorted members)
    (hm : ∀ m ∈ members, m.2.Sound) (room : Nat) :
    (Tree.object members).node.asMap room =
      if Tree.membersDepth members ≤ room then .ok (Tree.rereadMembers members)
      else .error .malformed := by
  have hsorted : Keyed.Sorted ([] ++ Tree.rereadMembers members) := Tree.sorted_rereadMembers hs
  rw [Tree.node, Node.asMap, foldMembers_insert hsorted hm]
  split <;> rfl

/-- Reading the text of a tree is reading the tree. -/
theorem readTyped_text {α : Type} (read : Node → Except Problem α) {t : Tree} (ht : t.Finite) :
    readTyped read (text t) = read t.node := by
  rw [readTyped, toList_text ht, Document.ofChars_chars ht]
  simp only
  cases read t.node <;> rfl

theorem decodeTyped_encode {α : Type} (read : Node → Except Problem α) {t : Tree}
    (ht : t.Finite) : decodeTyped read (encode t) = read t.node := by
  rw [decodeTyped, encode, fromUTF8?_toUTF8]
  exact readTyped_text read ht

end Json

end EventPipeline
