import EventPipeline.Proofs.Json.Reader
import EventPipeline.Proofs.Template.Positions

/-!
Filling in a variable over the bytes of a text, in turns: each finds an occurrence of the name and
the brackets around it as numbers of bytes, and cuts the text there. Main statement: no number is
outside of the text or inside of a character, and no variable takes more turns than its name fits
into the text (`interpolate_in_range`).
-/

namespace EventPipeline.Template

open Text (utf8 isBoundary slice? splice? locate? utf8_append length_utf8_append)

/-- The bytes of a text, and the number of the first one that is not final. -/
structure Place where
  bytes : List UInt8
  cursor : Nat
deriving DecidableEq

/-- What is still to be searched. -/
def Place.rest (p : Place) : List UInt8 := p.bytes.drop p.cursor

/-- The numbers that are used where an occurrence is replaced, and the place behind it. -/
structure Turn where
  start : Nat
  stop : Nat
  /-- The opening and the closing bracket of the group. -/
  brackets : Option (Nat × Nat)
  next : Place
deriving DecidableEq

/--
Replaces the bytes from `start` to `stop`, or the group that they are in, and moves behind what was
put in the place. Nothing is returned if a text is cut where it may not be.
-/
def replaceAt? (name : List UInt8) (value : Option (List UInt8)) (bytes : List UInt8)
    (start stop : Nat) : Option (Nat × Nat) → Option Place
  | none => do
    let new := value.getD name
    return ⟨← splice? bytes start stop new, start + new.length⟩
  | some (opening, closing) =>
    match value with
    | some value => do
      let lead ← slice? bytes (opening + 1) start
      let tail ← slice? bytes stop closing
      let unwrapped := lead ++ value ++ tail
      return ⟨← splice? bytes opening (closing + 1) unwrapped, opening + unwrapped.length⟩
    | none => do
      return ⟨← splice? bytes opening (closing + 1) [], opening⟩

/--
Replaces the next occurrence of `name`, if there is one. Nothing is returned if a byte is asked for
that is not there, or a text is cut where it may not be.
-/
def turn? (name : List UInt8) (value : Option (List UInt8)) (p : Place) : Option (Option Turn) := do
  let rest ← slice? p.bytes p.cursor p.bytes.length
  match locate? name rest with
  | none => return none
  | some offset =>
    let start := p.cursor + offset
    let stop := start + name.length
    let group ← brackets? p.bytes start stop
    let next ← replaceAt? name value p.bytes start stop group
    return some ⟨start, stop, group, next⟩

/--
The turns that replace all occurrences of `name`. Nothing is returned if one goes wrong, or if an
occurrence is left after `limit` of them.
-/
def turns? (name : List UInt8) (value : Option (List UInt8)) : (limit : Nat) → Place →
    Option (List Turn)
  | 0, p => do
    match ← turn? name value p with
    | none => return []
    | some _ => none
  | limit + 1, p => do
    match ← turn? name value p with
    | none => return []
    | some turn => return turn :: (← turns? name value limit turn.next)

/-- The place behind the last turn. -/
def Place.after (p : Place) : List Turn → Place
  | [] => p
  | turn :: turns => turn.next.after turns

/-- Fills variables into the bytes of a template. -/
def fill? (text : List UInt8) : List Variable → Option Tree
  | [] => (String.fromUTF8? text.toByteArray).map .text
  | v :: vs =>
    let name := v.name.toUTF8.toList
    if name = [] then fill? text vs
    else if text = name then some (v.value.getD (.text v.name))
    else do
      let value := v.value.map fun t => (rendered t).toUTF8.toList
      let turns ← turns? name value (text.length / name.length) ⟨text, 0⟩
      fill? (Place.after ⟨text, 0⟩ turns).bytes vs

/-- The numbers of a turn are those of places where the text may be cut, in their order, and the
turn uses up at least the name. -/
structure Turn.InRange (name : List UInt8) (p : Place) (turn : Turn) : Prop where
  cursor : p.cursor ≤ turn.start ∧ isBoundary p.bytes p.cursor
  start : isBoundary p.bytes turn.start
  stop : turn.stop = turn.start + name.length ∧ turn.stop ≤ p.bytes.length ∧
    isBoundary p.bytes turn.stop
  brackets : ∀ opening closing, turn.brackets = some (opening, closing) →
    BracketsInRange p.bytes turn.start turn.stop opening closing
  next : turn.next.cursor ≤ turn.next.bytes.length ∧ isBoundary turn.next.bytes turn.next.cursor
  suffix : turn.next.rest <:+ p.rest
  shorter : turn.next.rest.length + name.length ≤ p.rest.length

/-- Turns that are in range, each at the place behind the one before it. -/
inductive Orderly (name : List UInt8) : Place → List Turn → Prop where
  | nil {p : Place} : Orderly name p []
  | cons {p : Place} {turn : Turn} {turns : List Turn} :
    turn.InRange name p → Orderly name turn.next turns → Orderly name p (turn :: turns)

/-- So many turns there are at most as the name fits into the text that is searched. -/
theorem Orderly.length_mul_le {name : List UInt8} {p : Place} {turns : List Turn}
    (h : Orderly name p turns) : turns.length * name.length ≤ p.rest.length := by
  induction h with
  | nil => simp
  | cons hturn _ ih =>
    have hshorter := hturn.shorter
    rw [List.length_cons, Nat.succ_mul]
    omega

/-! ### One turn -/

variable {before name after : List Char} {value : Option (List Char)} {c d : Cursor}

/-- The place of a cursor among the bytes. -/
def Cursor.place (c : Cursor) : Place := ⟨utf8 c.text, (utf8 c.before.reverse).length⟩

theorem Cursor.cursor_place_le (c : Cursor) : c.place.cursor ≤ c.place.bytes.length := by
  rw [place, text, length_utf8_append]
  exact Nat.le_add_right _ _

@[simp] theorem Cursor.rest_place (c : Cursor) : c.place.rest = utf8 c.after := by
  rw [place, Place.rest, text, utf8_append, List.drop_left]

theorem Cursor.bytes_place (h : Text.find? name c.before c.after = some (before, after)) :
    c.place.bytes = utf8 (before.reverse ++ (name ++ after)) := by
  rw [place, text, Text.find?_eq_some h, List.append_assoc]

theorem Cursor.slice?_place (c : Cursor) :
    slice? c.place.bytes c.place.cursor c.place.bytes.length = some (utf8 c.after) := by
  refine Text.slice?_utf8 (l := c.before.reverse) (r := []) ?_ rfl ?_
  · rw [text, List.append_nil]
  · rw [place, text, length_utf8_append]

/-- A turn ends where the cursor gets. -/
theorem replaceAt?_utf8 (h : Replaces name value c d) :
    ∃ before after, Text.find? name c.before c.after = some (before, after) ∧
      replaceAt? (utf8 name) (value.map utf8) c.place.bytes (utf8 before.reverse).length
        (utf8 (before.reverse ++ name)).length
        ((group? before name after).map (·.numbers before name)) = some d.place := by
  cases h with
  | @plain before after hfind hgroup =>
    refine ⟨before, after, hfind, ?_⟩
    have hstop : (utf8 (before.reverse ++ name)).length =
        (utf8 before.reverse).length + (utf8 name).length := by rw [length_utf8_append]
    rw [hgroup, Option.map_none, replaceAt?, Option.getD_map, Cursor.bytes_place hfind,
      Text.splice?_utf8 rfl rfl hstop]
    simp [Cursor.place, Cursor.text, utf8_append]
  | @unwrapped before after v g hfind hg hvalue =>
    refine ⟨before, after, hfind, ?_⟩
    have hunwrapped : utf8 g.lead.reverse ++ utf8 v ++ utf8 g.tail =
        utf8 (g.lead.reverse ++ v ++ g.tail) := by rw [utf8_append, utf8_append]
    rw [group?_eq_some_iff.mpr hg, hvalue, Option.map_some, Option.map_some, replaceAt?,
      Cursor.bytes_place hfind, hg.slice?_lead, hg.slice?_tail]
    simp only [Option.bind_eq_bind, Option.bind_some, hunwrapped, hg.splice?, Option.pure_def]
    simp [Cursor.place, Cursor.text, Group.numbers, utf8_append]
  | @removed before after g hfind hg hvalue =>
    refine ⟨before, after, hfind, ?_⟩
    rw [group?_eq_some_iff.mpr hg, hvalue, Option.map_none, Option.map_some, replaceAt?,
      Cursor.bytes_place hfind, ← Text.utf8_nil, hg.splice?]
    simp [Cursor.place, Cursor.text, Group.numbers]

/-- A turn replaces the occurrence that is found, and ends where the cursor moves to. -/
theorem turn?_eq {next : Place} (hname : name ≠ [])
    (hfind : Text.find? name c.before c.after = some (before, after))
    (hnext : replaceAt? (utf8 name) (value.map utf8) c.place.bytes (utf8 before.reverse).length
      (utf8 (before.reverse ++ name)).length
      ((group? before name after).map (·.numbers before name)) = some next) :
    turn? (utf8 name) (value.map utf8) c.place =
      some (some ⟨(utf8 before.reverse).length, (utf8 (before.reverse ++ name)).length,
        (group? before name after).map (·.numbers before name), next⟩) := by
  have hbrackets := brackets?_utf8 hname before after
  rw [← Cursor.bytes_place hfind] at hbrackets
  rw [Text.find?_eq_map, Option.map_eq_some_iff] at hfind
  obtain ⟨⟨gap, rest⟩, hfind, hpair⟩ := hfind
  obtain ⟨rfl, rfl⟩ := Prod.mk.inj hpair
  have hlocate : locate? (utf8 name) (utf8 c.after) = some (utf8 gap.reverse).length := by
    rw [Text.locate?_utf8 hname, hfind, Option.map_some]
  have hstart : c.place.cursor + (utf8 gap.reverse).length =
      (utf8 (gap ++ c.before).reverse).length := by
    rw [Cursor.place, List.reverse_append, length_utf8_append]
  rw [turn?, c.slice?_place, Option.bind_eq_bind, Option.bind_some, hlocate]
  simp only [hstart, ← length_utf8_append, hbrackets, hnext, Option.bind_eq_bind, Option.bind_some,
    Option.pure_def]

theorem turn?_of_none (hname : name ≠ []) (h : advance name value c = none) :
    turn? (utf8 name) (value.map utf8) c.place = some none := by
  have hfind := advance_eq_none_iff.mp h
  rw [Text.find?_eq_map, Option.map_eq_none_iff] at hfind
  have hlocate : locate? (utf8 name) (utf8 c.after) = none := by
    rw [Text.locate?_utf8 hname, hfind, Option.map_none]
  rw [turn?, c.slice?_place, Option.bind_eq_bind, Option.bind_some, hlocate]
  rfl

/-- Where the cursor moves, a turn goes along with it, and stays in range. -/
theorem exists_turn? (hname : name ≠ []) (h : Replaces name value c d) :
    ∃ turn, turn? (utf8 name) (value.map utf8) c.place = some (some turn) ∧ turn.next = d.place ∧
      turn.InRange (utf8 name) c.place := by
  obtain ⟨before, after, hfind, hnext⟩ := replaceAt?_utf8 h
  obtain ⟨gap, hbefore, -⟩ := Text.exists_of_find? hfind
  obtain ⟨gap', between, hafter, -⟩ := h.exists_after_eq
  refine ⟨_, turn?_eq hname hfind hnext, rfl, ?_⟩
  have hbytes := Cursor.bytes_place hfind
  exact {
    cursor := by
      refine ⟨?_, Text.isBoundary_utf8 rfl rfl⟩
      rw [hbefore, List.reverse_append, length_utf8_append, List.reverse_reverse]
      exact Nat.le_add_right _ _
    start := hbytes ▸ Text.isBoundary_utf8 rfl rfl
    stop := by
      rw [hbytes, ← List.append_assoc]
      refine ⟨length_utf8_append _ _, ?_, Text.isBoundary_utf8 rfl rfl⟩
      rw [length_utf8_append (before.reverse ++ name)]
      exact Nat.le_add_right _ _
    brackets := fun opening closing hnumbers => by
      obtain ⟨g, hg, hnumbers⟩ := Option.map_eq_some_iff.mp hnumbers
      obtain ⟨rfl, rfl⟩ := Prod.mk.inj hnumbers
      exact hbytes ▸ (group?_eq_some_iff.mp hg).inRange
    next := ⟨d.cursor_place_le, Text.isBoundary_utf8 rfl rfl⟩
    suffix := by
      rw [Cursor.rest_place, Cursor.rest_place, hafter, utf8_append _ d.after]
      exact List.suffix_append _ _
    shorter := by
      rw [Cursor.rest_place, Cursor.rest_place, hafter, length_utf8_append _ d.after,
        length_utf8_append _ between, length_utf8_append gap']
      omega }

/-! ### All turns -/

variable (hname : name ≠ [])

/-- The turns replace the occurrences of a name, and so many as the text has room for are enough. -/
theorem exists_turns? {limit : Nat}
    (hlimit : (utf8 c.after).length < (utf8 name).length * (limit + 1)) :
    ∃ turns, turns? (utf8 name) (value.map utf8) limit c.place = some turns ∧
      Orderly (utf8 name) c.place turns ∧
      (c.place.after turns).bytes = utf8 (substitute name hname value c) := by
  induction c using substitute.induct name hname value generalizing limit with
  | case1 c h =>
    refine ⟨[], ?_, .nil, by rw [substitute_of_none hname h]; rfl⟩
    cases limit <;> rw [turns?, turn?_of_none hname h] <;> rfl
  | case2 c d h ih =>
    obtain ⟨turn, hturn, hnext, hrange⟩ := exists_turn? hname (advance_eq_some_iff.mp h)
    have hshorter := hrange.shorter
    rw [hnext, Cursor.rest_place, Cursor.rest_place] at hshorter
    rw [Nat.mul_succ] at hlimit
    cases limit with
    | zero => omega
    | succ limit =>
      have hlimit : (utf8 d.after).length < (utf8 name).length * (limit + 1) := by omega
      obtain ⟨turns, hturns, horderly, hbytes⟩ := ih hlimit
      refine ⟨turn :: turns, ?_, .cons hrange (hnext ▸ horderly), ?_⟩
      · rw [turns?, hturn]
        simp only [Option.bind_eq_bind, Option.bind_some, hnext, hturns, Option.pure_def]
      · rw [Place.after, hnext, hbytes, substitute_of_some hname h]

/-- The same for a text from its start, with as many turns as the name fits into it. -/
theorem exists_turns?_start (value : Option (List Char)) (cs : List Char) :
    ∃ turns, turns? (utf8 name) (value.map utf8) ((utf8 cs).length / (utf8 name).length)
        ⟨utf8 cs, 0⟩ = some turns ∧
      Orderly (utf8 name) ⟨utf8 cs, 0⟩ turns ∧
      (Place.after ⟨utf8 cs, 0⟩ turns).bytes = utf8 (substitute name hname value ⟨[], cs⟩) := by
  have hpos := List.length_pos_iff.mpr (Text.utf8_ne_nil hname)
  exact exists_turns? (c := ⟨[], cs⟩) hname (Nat.lt_mul_div_succ (utf8 cs).length hpos)

/-- Filling in the variables over the bytes never goes wrong, and comes to the same. -/
theorem fill?_utf8 (cs : List Char) (vars : List Variable) :
    fill? (utf8 cs) vars = some (fill cs vars) := by
  induction vars generalizing cs with
  | nil =>
    have hbytes : (utf8 cs).toByteArray = (String.ofList cs).toUTF8 := by
      rw [← Text.toByteArray_utf8, String.toList_ofList]
    rw [fill?, hbytes, Json.fromUTF8?_toUTF8]
    rfl
  | cons v vars ih =>
    rw [fill?, fill]
    simp only [← Text.utf8_toList]
    by_cases hname : v.name.toList = []
    · rw [dif_pos hname, hname, Text.utf8_nil, if_pos rfl, ih]
    rw [dif_neg hname, if_neg (Text.utf8_ne_nil hname)]
    by_cases htext : cs = v.name.toList
    · rw [if_pos htext, htext, if_pos rfl]
    · obtain ⟨turns, hturns, -, hbytes⟩ := exists_turns?_start hname
        (v.value.map fun t => (rendered t).toList) cs
      rw [Option.map_map] at hturns
      rw [if_neg htext, if_neg (mt Text.utf8_injective htext)]
      exact (congrArg (Option.bind · _) hturns).trans
        ((congrArg (fill? · vars) hbytes).trans (ih _))

/--
Filling in the variables goes through, and for every name no more turns are taken than the name
fits into the text. A turn finds its numbers in the text, where it may be cut, and the brackets
around the occurrence; what it leaves to be searched is the end of what was searched before, and
shorter by the name at least.
-/
theorem interpolate_in_range (template : String) (vars : List Variable) :
    fill? template.toUTF8.toList vars = some (interpolate template vars) ∧
      ∀ (text name : String) (value : Option String), name ≠ "" →
        ∃ turns, turns? name.toUTF8.toList (value.map (·.toUTF8.toList))
            (text.utf8ByteSize / name.utf8ByteSize) ⟨text.toUTF8.toList, 0⟩ = some turns ∧
          turns.length ≤ text.utf8ByteSize / name.utf8ByteSize ∧
          Orderly name.toUTF8.toList ⟨text.toUTF8.toList, 0⟩ turns := by
  refine ⟨by rw [← Text.utf8_toList, fill?_utf8, interpolate], fun text name value hname => ?_⟩
  have hchars : name.toList ≠ [] := mt String.toList_eq_nil_iff.mp hname
  obtain ⟨turns, hturns, horderly, -⟩ :=
    exists_turns?_start hchars (value.map String.toList) text.toList
  have hmul := horderly.length_mul_le
  rw [Option.map_map, Text.length_utf8_toList, Text.length_utf8_toList] at hturns
  have hvalue : value.map (utf8 ∘ String.toList) = value.map (·.toUTF8.toList) :=
    congrFun (congrArg _ (funext fun s => Text.utf8_toList s)) _
  rw [Place.rest, List.drop_zero, Text.length_utf8_toList, Text.length_utf8_toList] at hmul
  rw [hvalue, Text.utf8_toList, Text.utf8_toList] at hturns
  rw [Text.utf8_toList, Text.utf8_toList] at horderly
  refine ⟨turns, hturns, (Nat.le_div_iff_mul_le ?_).mpr hmul, horderly⟩
  rw [← Text.length_utf8_toList]
  exact List.length_pos_iff.mpr (Text.utf8_ne_nil hchars)

/-- A group of characters of several bytes, with a value that brings brackets and the name. -/
theorem interpolate_in_range_group :
    "$v" ≠ "" ∧ ∃ turns, turns? "$v".toUTF8.toList (some "($v)".toUTF8.toList) 5
        ⟨"é(ü$v) $v".toUTF8.toList, 0⟩ = some turns ∧
      turns.length ≤ 5 ∧ Orderly "$v".toUTF8.toList ⟨"é(ü$v) $v".toUTF8.toList, 0⟩ turns := by
  have hlimit : "é(ü$v) $v".utf8ByteSize / "$v".utf8ByteSize = 5 := by decide +kernel
  have hname : "$v" ≠ "" := by decide
  exact ⟨hname, hlimit ▸
    (interpolate_in_range "é(ü$v) $v" []).2 "é(ü$v) $v" "$v" (some "($v)") hname⟩

example : turns? (utf8 "$v".toList) (some (utf8 "($v)".toList)) 5 ⟨utf8 "é(ü$v) $v".toList, 0⟩ =
    some [⟨5, 7, some (2, 7), ⟨utf8 "éü($v) $v".toList, 8⟩⟩,
      ⟨9, 11, none, ⟨utf8 "éü($v) ($v)".toList, 13⟩⟩] := by decide +kernel

end EventPipeline.Template
