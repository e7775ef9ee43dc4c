import EventPipeline.Proofs.Template.Parts

/-!
Brackets that are left over. A name between two groups is taken to be in a group of its own; with
the brackets of that one, a bracket of each of the others is lost, so that the text closes one that
it does not open (`Readable.overcloses_of_between`). Whatever is filled in later, such a bracket
stays (`Overcloses.substitute`).
-/

namespace EventPipeline.Template

variable {names done : List String} {parts : List Part}
  {text? : String → Option (List Char)} {n : String} {before after : List Char}

/-- A text closes a bracket that neither it nor one of `depth` brackets before it opens. -/
inductive Overcloses : (depth : Nat) → List Char → Prop where
  | here {text : List Char} : Overcloses 0 (')' :: text)
  | closing {depth : Nat} {text : List Char} :
    Overcloses depth text → Overcloses (depth + 1) (')' :: text)
  | opening {depth : Nat} {text : List Char} :
    Overcloses (depth + 1) text → Overcloses depth ('(' :: text)
  | other {depth : Nat} {text : List Char} {x : Char} :
    x ≠ '(' → x ≠ ')' → Overcloses depth text → Overcloses depth (x :: text)

namespace Overcloses

variable {depth : Nat} {l m m' r : List Char}

theorem mem (h : Overcloses depth r) : ')' ∈ r := by
  induction h with
  | here => exact List.mem_cons_self
  | closing _ ih | opening _ ih | other _ _ _ ih => exact List.mem_cons_of_mem _ ih

theorem append_congr (h : ∀ depth, Overcloses depth m → Overcloses depth m')
    (hl : Overcloses depth (l ++ m)) : Overcloses depth (l ++ m') := by
  induction l generalizing depth with
  | nil => exact h depth hl
  | cons x l ih =>
    cases hl with
    | here => exact .here
    | closing hl => exact .closing (ih hl)
    | opening hl => exact .opening (ih hl)
    | other hopen hclose hl => exact .other hopen hclose (ih hl)

theorem append_iff (hopen : '(' ∉ l) (hclose : ')' ∉ l) :
    Overcloses depth (l ++ r) ↔ Overcloses depth r := by
  induction l with
  | nil => rfl
  | cons x l ih =>
    simp only [List.mem_cons, not_or] at hopen hclose
    rw [← ih hopen.2 hclose.2]
    refine ⟨fun h => ?_, .other (Ne.symm hopen.1) (Ne.symm hclose.1)⟩
    cases h with
    | here | closing _ => exact absurd rfl hclose.1
    | opening _ => exact absurd rfl hopen.1
    | other _ _ h => exact h

/-- Without a pair of brackets, a text still closes those that are not opened. -/
theorem of_pair (h : Overcloses (depth + 1) (l ++ ')' :: r)) : Overcloses depth (l ++ r) := by
  induction l generalizing depth with
  | nil =>
    cases h with
    | closing h => exact h
    | other _ hclose _ => exact absurd rfl hclose
  | cons x l ih =>
    cases h with
    | closing h =>
      cases depth with
      | zero => exact .here
      | succ depth => exact .closing (ih h)
    | opening h => exact .opening (ih h)
    | other hopen hclose h => exact .other hopen hclose (ih h)

theorem of_count (h : l.count '(' + depth < l.count ')') : Overcloses depth (l ++ r) := by
  induction l generalizing depth with
  | nil => simp at h
  | cons x l ih =>
    rw [List.count_cons, List.count_cons] at h
    by_cases hopen : x = '('
    · subst hopen
      exact .opening (ih (by simp at h; omega))
    by_cases hclose : x = ')'
    · subst hclose
      cases depth with
      | zero => exact .here
      | succ depth => exact .closing (ih (by simp at h; omega))
    · exact .other hopen hclose (ih (by simpa [hopen, hclose] using h))

variable {name v : List Char} {c d : Cursor}

/-- A text goes on to do so when an occurrence of a name is replaced by a value. -/
theorem replaces (hname : '(' ∉ name ∧ ')' ∉ name) (hv : '(' ∉ v ∧ ')' ∉ v)
    (hstep : Replaces name (some v) c d) (h : Overcloses depth c.text) :
    Overcloses depth d.text := by
  obtain ⟨l, m, m', r, hc, hd, hpart⟩ := hstep.exists_text_eq
  have hfree : ∀ depth rest, Overcloses depth (name ++ rest) → Overcloses depth (v ++ rest) :=
    fun depth rest h => (append_iff hv.1 hv.2).mpr ((append_iff hname.1 hname.2).mp h)
  rw [hc, List.append_assoc] at h
  rw [hd, List.append_assoc]
  refine append_congr (fun depth h => ?_) h
  cases hpart with
  | occurrence => exact hfree depth r h
  | group lead tail =>
    have hpair : Overcloses depth (lead ++ name ++ tail ++ r) := by
      cases h with
      | opening h => exact of_pair (by simpa using h)
      | other hopen _ _ => exact absurd rfl hopen
    simp only [List.append_assoc] at hpair
    simpa using append_congr (fun depth => hfree depth _) hpair

theorem substitute (hne : name ≠ []) (hname : '(' ∉ name ∧ ')' ∉ name) (hv : '(' ∉ v ∧ ')' ∉ v)
    (h : Overcloses depth c.text) : Overcloses depth (Template.substitute name hne (some v) c) :=
  invariant_substitute hne (fun _ _ hc hstep => hc.replaces hname hv hstep) h

end Overcloses

namespace Readable

variable (h : Readable names parts)

include h

/-- Replacing a name between brackets that are not its own leaves a closing bracket too many. -/
theorem overcloses_of_encloses {g : Group} {v : List Char} (hn : n ∈ names)
    (hv : '(' ∉ v ∧ ')' ∉ v) (hbalance : before.count '(' = before.count ')')
    (hg : g.Encloses before n.toList after) :
    Overcloses 0
      (substitute n.toList (h.named n hn).ne_nil (some v) ⟨before, n.toList ++ after⟩) := by
  have hname : '(' ∉ n.toList ∧ ')' ∉ n.toList :=
    ⟨(h.named n hn).notMem (by simp), (h.named n hn).notMem (by simp)⟩
  rw [substitute_unwrapped _ hg]
  have hcount : (g.lead ++ g.outside).reverse.count '(' + 0 <
      (g.lead ++ g.outside).reverse.count ')' := by
    rw [hg.before_eq] at hbalance
    simp only [List.count_reverse, List.count_append, List.count_cons] at hbalance ⊢
    simp at hbalance
    omega
  have hfirst : Overcloses 0
      (Cursor.text ⟨g.tail.reverse ++ (v.reverse ++ (g.lead ++ g.outside)), g.rest⟩) := by
    simpa [Cursor.text] using Overcloses.of_count (r := v ++ (g.tail ++ g.rest)) hcount
  exact hfirst.substitute (h.named n hn).ne_nil hname hv

variable (htext : ∀ m ∈ names, ∀ text ∈ text? m, IsLiteral text)

include htext

theorem count_shown {p : Part} (hp : p ∈ parts) :
    (p.shown text? done).count '(' = (p.shown text? done).count ')' := by
  by_cases hgroup : ∃ lead m tail, p = .group lead m tail ∧ m ∉ done
  · obtain ⟨lead, m, tail, rfl, hm⟩ := hgroup
    have hnone : ∀ x ∈ ['(', ')'], (lead ++ m.toList ++ tail).count x = 0 := fun x hx => by
      have hmem : x ∈ ['(', ')', '\\'] := List.mem_append_left ['\\'] hx
      have hname := (h.isName hp (m := m) rfl).notMem hmem
      have hliteral := mt (h.literal _ hp x) (not_not_intro (List.mem_cons_of_mem '$' hmem))
      rw [List.count_eq_zero]
      simp_all [Part.literals]
    have hcount := (hnone '(' (by simp)).trans (hnone ')' (by simp)).symm
    rw [Part.shown_of_notMem rfl hm, Part.chars]
    simp [List.count_append] at hcount ⊢
    omega
  · have hnone : ∀ x ∈ ['(', ')', '\\'], (p.shown text? done).count x = 0 := fun x hx =>
      List.count_eq_zero.mpr fun hmem => hgroup (h.of_mem_shown htext hp hx hmem).2
    rw [hnone '(' (by simp), hnone ')' (by simp)]

/-- Between two groups of which the first one is of another variable, a name is taken to be in a
group. -/
theorem exists_encloses {ps : List Part} (hps : ∀ p ∈ ps, p ∈ parts) (hn : n ∈ names)
    (hslash : '\\' ∉ before) (hopen : '(' ∈ before)
    (hclose : ∃ lead k tail, .group lead k tail ∈ ps ∧ k ∉ done) :
    ∃ g : Group, g.Encloses before n.toList (ps.flatMap (Part.shown text? done)) := by
  obtain ⟨lead, k, tail, hk, hdone⟩ := hclose
  have hclose : ')' ∈ ps.flatMap (Part.shown text? done) := by
    refine List.mem_flatMap.mpr ⟨_, hk, ?_⟩
    rw [Part.shown_of_notMem rfl hdone, Part.chars]
    simp
  have hslash' : '\\' ∉ ps.flatMap (Part.shown text? done) := fun hmem => by
    obtain ⟨p, hp, hmem⟩ := List.mem_flatMap.mp hmem
    exact (h.of_mem_shown htext (hps p hp) (by simp) hmem).1 rfl
  obtain ⟨lead, outside, hbefore, hlead⟩ := List.eq_append_cons_of_mem hopen
  obtain ⟨tail, rest, hafter, htail⟩ := List.eq_append_cons_of_mem hclose
  refine ⟨⟨outside, lead, tail, rest⟩, ?_, ?_, hbefore, hlead, hafter, htail, ?_, ?_⟩
  · simp [(h.named n hn).head]
  · exact (h.named n hn).notMem (by simp)
  · exact fun hx => hslash (by simp [hbefore, List.mem_of_mem_head? hx])
  · refine fun hx => (List.mem_append.mp (List.mem_of_getLast? hx)).elim
      ((h.named n hn).notMem (by simp)) fun hx => hslash' (by simp [hafter, hx])

/-- A name between two groups leaves a closing bracket too many, if its turn is the first one. -/
theorem overcloses_of_between (hn : n ∈ names) {v : List Char} (hv : text? n = some v)
    {l r : List Part} (hps : ∀ p ∈ l ++ .name n :: r, p ∈ parts) (hslash : '\\' ∉ before)
    (hbalance : before.count '(' = before.count ')')
    (hopen : '(' ∈ before ∨ ∃ lead m tail, .group lead m tail ∈ l ∧ m ≠ n)
    (hclose : ∃ lead k tail, .group lead k tail ∈ r) :
    Overcloses 0 (substitute n.toList (h.named n hn).ne_nil (text? n)
      ⟨before, (l ++ .name n :: r).flatMap (Part.shown text? [])⟩) := by
  have hvliteral : '(' ∉ v ∧ ')' ∉ v :=
    ⟨fun hx => htext n hn v hv _ hx (by simp), fun hx => htext n hn v hv _ hx (by simp)⟩
  have hname : ∀ done, n ∉ done → Part.shown text? done (.name n) = n.toList :=
    fun done hdone => Part.shown_of_notMem rfl hdone
  induction l generalizing before with
  | nil =>
    have hopen : '(' ∈ before := hopen.resolve_right (by simp)
    have hclose : ∃ lead k tail, .group lead k tail ∈ r ∧ k ∉ ([] : List String) := by
      simpa using hclose
    obtain ⟨g, hg⟩ := h.exists_encloses htext (fun p hp => hps p (by simp [hp])) hn hslash hopen
      hclose
    rw [List.nil_append, List.flatMap_cons, hname [] List.not_mem_nil, hv]
    exact h.overcloses_of_encloses hn hvliteral hbalance hg
  | cons p l ih =>
    obtain ⟨hp, hrest⟩ := List.forall_mem_cons.mp hps
    rw [List.cons_append, List.flatMap_cons]
    by_cases hgroup : p = .name n ∧ ∃ g : Group, g.Encloses before n.toList
        ((l ++ .name n :: r).flatMap (Part.shown text? []))
    · obtain ⟨rfl, g, hg⟩ := hgroup
      rw [hname [] List.not_mem_nil, hv]
      exact h.overcloses_of_encloses hn hvliteral hbalance hg
    · have hplain : p = .name n → group? before n.toList
          ((l ++ .name n :: r).flatMap (Part.shown text? [])) = none := fun hpn =>
        Option.eq_none_iff_forall_ne_some.mpr fun g hg =>
          hgroup ⟨hpn, g, group?_eq_some_iff.mp hg⟩
      rw [h.substitute_append_part htext hn List.not_mem_nil hp hslash hplain]
      refine ih hrest ?_ ?_ ?_
      · simp only [List.mem_append, List.mem_reverse, not_or]
        exact ⟨fun hmem => (h.of_mem_shown htext hp (by simp) hmem).1 rfl, hslash⟩
      · rw [List.count_append, List.count_append, List.count_reverse, List.count_reverse,
          h.count_shown htext hp, hbalance]
      · rcases hopen with hopen | ⟨lead, m, tail, hm, hmn⟩
        · exact .inl (List.mem_append_right _ hopen)
        · rcases List.mem_cons.mp hm with rfl | hm
          · refine .inl (List.mem_append_left _ ?_)
            rw [Part.shown_of_notMem rfl (by simpa using hmn), Part.chars]
            simp
          · exact .inr ⟨lead, m, tail, hm, hmn⟩

end Readable

end EventPipeline.Template
