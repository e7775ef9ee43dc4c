import EventPipeline.Proofs.Template.Steps
import EventPipeline.Proofs.Text.Bytes

/-!
The brackets around an occurrence, looked for among the bytes of a text. They are found where the
group of the occurrence has them (`brackets?_utf8`), and the text may be cut there
(`Group.Encloses.inRange`).
-/

namespace EventPipeline.Template

open Text (utf8 byteOf isBoundary slice? lastIdxOf? utf8_append length_utf8_append length_utf8_lt)

/-- The last `(` up to the byte with the number `start`. -/
def opening? (bytes : List UInt8) (start : Nat) : Option Nat :=
  lastIdxOf? (byteOf '(') (bytes.take (start + 1))

/-- The first `)` from the byte with the number `start` on. -/
def closing? (bytes : List UInt8) (start : Nat) : Option Nat :=
  ((bytes.drop start).idxOf? (byteOf ')')).map (start + ·)

/-- Whether a backslash stands before a byte; nothing if there is no such byte. -/
def escaped? (bytes : List UInt8) (i : Nat) : Option Bool :=
  if i = 0 then some false else bytes[i - 1]?.map (· == byteOf '\\')

/--
The brackets around the bytes from `start` to `stop`. Nothing is returned if a byte is asked for
that is not there.
-/
def brackets? (bytes : List UInt8) (start stop : Nat) : Option (Option (Nat × Nat)) :=
  if start < bytes.length then
    match opening? bytes start, closing? bytes start with
    | some opening, some closing => do
      let before ← escaped? bytes opening
      let behind ← escaped? bytes closing
      return if before || behind then none
        else if opening < start ∧ stop ≤ closing then some (opening, closing)
        else none
    | _, _ => some none
  else none

/-- The numbers of the brackets of a group around an occurrence. -/
def Group.numbers (g : Group) (before name : List Char) : Nat × Nat :=
  ((utf8 g.outside.reverse).length, (utf8 (before.reverse ++ (name ++ g.tail))).length)

/-- Brackets that stand around the bytes from `start` to `stop`, where the text may be cut on both
sides of either. -/
structure BracketsInRange (bytes : List UInt8) (start stop opening closing : Nat) : Prop where
  opens : opening < start
  closes : stop ≤ closing
  length : closing < bytes.length
  opening : isBoundary bytes opening ∧ isBoundary bytes (opening + 1)
  closing : isBoundary bytes closing ∧ isBoundary bytes (closing + 1)

/-! ### The searches -/

section

variable {before name : List Char} (hname : name ≠ [])

include hname

/-- The search for an opening bracket reaches the first byte of the occurrence. -/
theorem exists_take_utf8 (before after : List Char) :
    ∃ b, (utf8 (before.reverse ++ (name ++ after))).take ((utf8 before.reverse).length + 1) =
      utf8 before.reverse ++ [b] ∧ (byteOf '(' = b ↔ name.head? = some '(') := by
  obtain ⟨b, bs, hb, -⟩ := Text.exists_utf8_eq hname
  refine ⟨b, ?_, ?_⟩
  · rw [utf8_append, utf8_append, hb, List.take_length_add_append]
    rfl
  · rw [← Text.head?_utf8 (by decide), hb, List.head?_cons, Option.some.injEq, eq_comm]

theorem opening?_of_head (h : name.head? = some '(') (before after : List Char) :
    opening? (utf8 (before.reverse ++ (name ++ after))) (utf8 before.reverse).length =
      some (utf8 before.reverse).length := by
  obtain ⟨b, htake, hb⟩ := exists_take_utf8 hname before after
  rw [opening?, htake, ← hb.mpr h]
  exact Text.lastIdxOf?_append_cons List.not_mem_nil _

theorem opening?_of_mem {outside lead : List Char} (h : name.head? ≠ some '(')
    (hbefore : before = lead ++ '(' :: outside) (hlead : '(' ∉ lead) (after : List Char) :
    opening? (utf8 (before.reverse ++ (name ++ after))) (utf8 before.reverse).length =
      some (utf8 outside.reverse).length := by
  obtain ⟨b, htake, hb⟩ := exists_take_utf8 hname before after
  have hbyte : byteOf '(' ∉ [b] := fun hmem => h (hb.mp (List.mem_singleton.mp hmem))
  have hreverse : before.reverse = outside.reverse ++ '(' :: lead.reverse := by
    rw [hbefore]
    simp
  rw [opening?, htake, hreverse]
  exact Text.lastIdxOf?_utf8 (by decide) (mt List.mem_reverse.mp hlead) hbyte _

theorem opening?_of_notMem (h : name.head? ≠ some '(') (hbefore : '(' ∉ before)
    (after : List Char) :
    opening? (utf8 (before.reverse ++ (name ++ after))) (utf8 before.reverse).length = none := by
  obtain ⟨b, htake, hb⟩ := exists_take_utf8 hname before after
  have hbyte : byteOf '(' ∉ [b] := fun hmem => h (hb.mp (List.mem_singleton.mp hmem))
  rw [opening?, htake]
  exact Text.lastIdxOf?_utf8_of_notMem (by decide) (mt List.mem_reverse.mp hbefore) hbyte

end

theorem closing?_utf8 {l : List Char} (hl : ')' ∉ l) (front r : List Char) :
    closing? (utf8 (front ++ (l ++ ')' :: r))) (utf8 front).length =
      some (utf8 (front ++ l)).length := by
  rw [closing?, utf8_append, List.drop_left, Text.idxOf?_utf8 (by decide) hl, Option.map_some,
    length_utf8_append]

theorem closing?_of_notMem {cs : List Char} (h : ')' ∉ cs) (front : List Char) :
    closing? (utf8 (front ++ cs)) (utf8 front).length = none := by
  have hbyte : byteOf ')' ∉ utf8 cs := mt (Text.mem_utf8_iff (by decide)).mp h
  rw [closing?, utf8_append, List.drop_left, List.idxOf?_eq_none_iff.mpr hbyte, Option.map_none]

theorem escaped?_utf8 (l r : List Char) :
    escaped? (utf8 (l ++ r)) (utf8 l).length = some (decide (l.getLast? = some '\\')) := by
  by_cases hl : l = []
  · subst hl
    rfl
  · have hne := Text.utf8_ne_nil hl
    have hpos := List.length_pos_iff.mpr hne
    obtain ⟨b, hb⟩ := Option.ne_none_iff_exists'.mp (mt List.getLast?_eq_none_iff.mp hne)
    have hlast : (utf8 l).getLast? = some (byteOf '\\') ↔ l.getLast? = some '\\' :=
      Text.getLast?_utf8 (by decide)
    rw [hb, Option.some.injEq] at hlast
    rw [escaped?, if_neg hpos.ne', utf8_append, List.getElem?_append_left (by omega),
      ← List.getLast?_eq_getElem?, hb, Option.map_some, beq_eq_decide]
    exact congrArg some (decide_eq_decide.mpr hlast)

/-! ### The brackets of the group -/

variable {before name after : List Char} {g : Group}

/-- Brackets that are found count unless one is disabled, or they are not around the occurrence. -/
theorem brackets?_eq {cs outside inside l r : List Char} (stop : Nat)
    (hopening : opening? (utf8 (before.reverse ++ cs)) (utf8 before.reverse).length =
      some (utf8 outside).length)
    (hbefore : before.reverse = outside ++ inside) (hcs : cs = l ++ ')' :: r) (hl : ')' ∉ l) :
    brackets? (utf8 (before.reverse ++ cs)) (utf8 before.reverse).length stop =
      some (if outside.getLast? = some '\\' ∨ (before.reverse ++ l).getLast? = some '\\' then none
        else if (utf8 outside).length < (utf8 before.reverse).length ∧
            stop ≤ (utf8 (before.reverse ++ l)).length then
          some ((utf8 outside).length, (utf8 (before.reverse ++ l)).length)
        else none) := by
  have hlt : (utf8 before.reverse).length < (utf8 (before.reverse ++ cs)).length :=
    length_utf8_lt (by simp [hcs]) before.reverse
  have hclosing : closing? (utf8 (before.reverse ++ cs)) (utf8 before.reverse).length =
      some (utf8 (before.reverse ++ l)).length := hcs ▸ closing?_utf8 hl before.reverse r
  have hopens : escaped? (utf8 (before.reverse ++ cs)) (utf8 outside).length =
      some (decide (outside.getLast? = some '\\')) := by
    rw [hbefore, List.append_assoc]
    exact escaped?_utf8 outside _
  have hcloses : escaped? (utf8 (before.reverse ++ cs)) (utf8 (before.reverse ++ l)).length =
      some (decide ((before.reverse ++ l).getLast? = some '\\')) := by
    rw [hcs, ← List.append_assoc]
    exact escaped?_utf8 (before.reverse ++ l) _
  rw [brackets?, if_pos hlt, hopening, hclosing]
  simp only [hopens, hcloses, Option.bind_eq_bind, Option.bind_some, Bool.or_eq_true,
    decide_eq_true_eq, Option.pure_def]

/-- Where the name holds a closing bracket, that one is found, and it is not behind the name. -/
theorem brackets?_of_whole {outside inside : List Char}
    (hopening : opening? (utf8 (before.reverse ++ (name ++ after))) (utf8 before.reverse).length =
      some (utf8 outside).length)
    (hbefore : before.reverse = outside ++ inside) (hwhole : ')' ∈ name) :
    brackets? (utf8 (before.reverse ++ (name ++ after))) (utf8 before.reverse).length
      (utf8 (before.reverse ++ name)).length = some none := by
  obtain ⟨front, back, hback, hfront⟩ := List.eq_append_cons_of_mem hwhole
  have hcs : name ++ after = front ++ ')' :: (back ++ after) := by
    rw [hback, List.append_assoc, List.cons_append]
  have hlong := length_utf8_lt (List.cons_ne_nil ')' back) (before.reverse ++ front)
  rw [List.append_assoc, ← hback, ← Nat.not_le] at hlong
  rw [brackets?_eq _ hopening hbefore hcs hfront]
  simp [hlong]

/-- The nearest brackets are found, and are used unless one is disabled. -/
theorem brackets?_of_nearest (hname : name ≠ []) (hstart : name.head? ≠ some '(')
    (hwhole : ')' ∉ name) (hbefore : before = g.lead ++ '(' :: g.outside) (hlead : '(' ∉ g.lead)
    (hafter : after = g.tail ++ ')' :: g.rest) (htail : ')' ∉ g.tail) :
    brackets? (utf8 (before.reverse ++ (name ++ after))) (utf8 before.reverse).length
        (utf8 (before.reverse ++ name)).length =
      some ((group? before name after).map (·.numbers before name)) := by
  have hopening := opening?_of_mem hname hstart hbefore hlead after
  have hinside : before.reverse = g.outside.reverse ++ '(' :: g.lead.reverse := by
    rw [hbefore]
    simp
  have hcs : name ++ after = name ++ g.tail ++ ')' :: g.rest := by rw [hafter, List.append_assoc]
  have hl : ')' ∉ name ++ g.tail := fun h => (List.mem_append.mp h).elim hwhole htail
  have hlast : (before.reverse ++ (name ++ g.tail)).getLast? = (name ++ g.tail).getLast? :=
    List.getLast?_append_of_ne_nil _ (by simp [hname])
  have haround : (utf8 g.outside.reverse).length < (utf8 before.reverse).length ∧
      (utf8 (before.reverse ++ name)).length ≤
        (utf8 (before.reverse ++ (name ++ g.tail))).length := by
    constructor
    · exact hinside ▸ length_utf8_lt (List.cons_ne_nil _ _) g.outside.reverse
    · rw [← List.append_assoc, length_utf8_append (before.reverse ++ name)]
      exact Nat.le_add_right _ _
  rw [brackets?_eq _ hopening hinside hcs hl, if_pos haround, List.getLast?_reverse, hlast, hafter,
    hbefore, group?_eq_ite hstart hwhole hlead htail, ← hbefore]
  split <;> rfl

/-- The brackets are found where the group has them. -/
theorem brackets?_utf8 (hname : name ≠ []) (before after : List Char) :
    brackets? (utf8 (before.reverse ++ (name ++ after))) (utf8 before.reverse).length
        (utf8 (before.reverse ++ name)).length =
      some ((group? before name after).map (·.numbers before name)) := by
  have hlt : (utf8 before.reverse).length < (utf8 (before.reverse ++ (name ++ after))).length :=
    length_utf8_lt (by simp [hname]) before.reverse
  by_cases hclose : ')' ∈ name ++ after
  swap
  · rw [brackets?, if_pos hlt, closing?_of_notMem hclose,
      group?_of_notMem_after fun h => hclose (List.mem_append_right _ h)]
    cases opening? _ _ <;> rfl
  by_cases hstart : name.head? = some '('
  · -- The bracket that is found is the first letter of the name.
    obtain ⟨l, r, hlr, hl⟩ := List.eq_append_cons_of_mem hclose
    have hopening := opening?_of_head hname hstart before after
    rw [brackets?_eq _ hopening (List.append_nil _).symm hlr hl, group?_of_head hstart]
    simp
  by_cases hopen : '(' ∈ before
  swap
  · rw [brackets?, if_pos hlt, opening?_of_notMem hname hstart hopen, group?_of_notMem_before hopen]
    rfl
  obtain ⟨lead, outside, hbefore, hlead⟩ := List.eq_append_cons_of_mem hopen
  by_cases hwhole : ')' ∈ name
  · have hopening := opening?_of_mem hname hstart hbefore hlead after
    have hinside : before.reverse = outside.reverse ++ '(' :: lead.reverse := by
      rw [hbefore]
      simp
    rw [brackets?_of_whole hopening hinside hwhole, group?_of_whole hwhole]
    rfl
  · obtain ⟨tail, rest, hafter, htail⟩ :=
      List.eq_append_cons_of_mem ((List.mem_append.mp hclose).resolve_left hwhole)
    exact brackets?_of_nearest (g := ⟨outside, lead, tail, rest⟩) hname hstart hwhole hbefore hlead
      hafter htail

/-! ### Cutting at the brackets -/

namespace Group.Encloses

variable (hg : g.Encloses before name after)

include hg

theorem reverse_eq : before.reverse = g.outside.reverse ++ ['('] ++ g.lead.reverse := by
  rw [hg.before_eq]
  simp

theorem text_eq : before.reverse ++ (name ++ after) =
    g.outside.reverse ++ (['('] ++ g.lead.reverse ++ name ++ g.tail ++ [')'] ++ g.rest) := by
  rw [hg.before_eq, hg.after_eq]
  simp

/-- The group may be taken out of the text. -/
theorem splice? (new : List Char) :
    Text.splice? (utf8 (before.reverse ++ (name ++ after))) (g.numbers before name).1
        ((g.numbers before name).2 + 1) (utf8 new) =
      some (utf8 (g.outside.reverse ++ (new ++ g.rest))) := by
  refine Text.splice?_utf8 hg.text_eq rfl ?_ new
  have hclosing : (utf8 [')']).length = 1 := rfl
  rw [numbers, hg.reverse_eq]
  simp only [length_utf8_append, hclosing]
  omega

/-- What stands before the occurrence in the group may be cut out. -/
theorem slice?_lead :
    slice? (utf8 (before.reverse ++ (name ++ after))) ((g.numbers before name).1 + 1)
        (utf8 before.reverse).length = some (utf8 g.lead.reverse) := by
  have hopening : (utf8 ['(']).length = 1 := rfl
  refine Text.slice?_utf8 (l := g.outside.reverse ++ ['(']) (r := name ++ after) ?_ ?_ ?_
  · rw [hg.reverse_eq, List.append_assoc]
  · rw [length_utf8_append, hopening, numbers]
  · rw [hg.reverse_eq, length_utf8_append]

/-- What stands behind the occurrence in the group may be cut out. -/
theorem slice?_tail :
    slice? (utf8 (before.reverse ++ (name ++ after))) (utf8 (before.reverse ++ name)).length
        (g.numbers before name).2 = some (utf8 g.tail) := by
  refine Text.slice?_utf8 (l := before.reverse ++ name) (r := [')'] ++ g.rest) ?_ rfl ?_
  · rw [hg.after_eq]
    simp
  · rw [numbers, ← List.append_assoc, length_utf8_append]

theorem inRange : BracketsInRange (utf8 (before.reverse ++ (name ++ after)))
    (utf8 before.reverse).length (utf8 (before.reverse ++ name)).length
    (g.numbers before name).1 (g.numbers before name).2 := by
  have hopening : (utf8 ['(']).length = 1 := rfl
  have hclosing : (utf8 [')']).length = 1 := rfl
  have htext : before.reverse ++ (name ++ after) =
      before.reverse ++ (name ++ g.tail) ++ ([')'] ++ g.rest) := by
    rw [hg.after_eq]
    simp
  refine ⟨?_, ?_, ?_, ⟨Text.isBoundary_utf8 hg.text_eq rfl, ?_⟩,
    ⟨Text.isBoundary_utf8 htext rfl, ?_⟩⟩
  · rw [hg.reverse_eq, length_utf8_append, length_utf8_append, hopening, numbers]
    omega
  · rw [numbers, ← List.append_assoc, length_utf8_append (before.reverse ++ name)]
    exact Nat.le_add_right _ _
  · rw [numbers, htext]
    exact length_utf8_lt (List.cons_ne_nil _ _) _
  · refine Text.isBoundary_utf8 (l := g.outside.reverse ++ ['('])
      (r := g.lead.reverse ++ (name ++ after)) ?_ ?_
    · rw [hg.reverse_eq, List.append_assoc]
    · rw [length_utf8_append, hopening, numbers]
  · refine Text.isBoundary_utf8 (l := before.reverse ++ (name ++ g.tail) ++ [')'])
      (r := g.rest) ?_ ?_
    · rw [htext, List.append_assoc _ [')']]
    · rw [length_utf8_append _ [')'], hclosing, numbers]

end Group.Encloses

end EventPipeline.Template
