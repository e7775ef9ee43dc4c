import EventPipeline.Json.Document
import EventPipeline.Proofs.Json.Chars
import EventPipeline.Proofs.Json.Number

/-!
The text of a tree is the document that shows the tree (`Document.ofChars_chars`), as long as no
number in it is infinite. The order of the members does not matter to that.
-/

namespace EventPipeline

open Json

namespace Tree

/-- No number in the tree is infinite. -/
inductive Finite : Tree → Prop where
  | null : Finite .null
  | bool (b : Bool) : Finite (.bool b)
  | number {n : Number} : n.IsFinite → Finite (.number n)
  | text (s : String) : Finite (.text s)
  | array {items : List Tree} : (∀ t ∈ items, Finite t) → Finite (.array items)
  | object {members : List (String × Tree)} : (∀ m ∈ members, Finite m.2) → Finite (.object members)

mutual
/-- How a tree shows in a document. -/
def node : Tree → Node
  | .null => .null
  | .bool b => .bool b
  | .number n => .numeral n.numeral
  | .text s => .text (some s)
  | .array items => .array (itemNodes items) true
  | .object members => .object (memberNodes members) true

def itemNodes : List Tree → List Node
  | [] => []
  | t :: ts => t.node :: itemNodes ts

def memberNodes : List (String × Tree) → List (Option String × Node)
  | [] => []
  | (name, t) :: ms => (some name, t.node) :: memberNodes ms
end

mutual
/-- How a tree is written. -/
def chars : Tree → List Char
  | .null => ['n', 'u', 'l', 'l']
  | .bool true => ['t', 'r', 'u', 'e']
  | .bool false => ['f', 'a', 'l', 's', 'e']
  | .number n => n.numeral.chars
  | .text s => stringChars s
  | .array items => '[' :: itemChars true items
  | .object members => '\x7b' :: memberChars true members

/-- The elements of an array and its closing bracket. -/
def itemChars (first : Bool) : List Tree → List Char
  | [] => [']']
  | t :: ts => (if first then [] else [',']) ++ t.chars ++ itemChars false ts

/-- The members of an object and its closing brace. -/
def memberChars (first : Bool) : List (String × Tree) → List Char
  | [] => ['\x7d']
  | (name, t) :: ms =>
    (if first then [] else [',']) ++ stringChars name ++ ':' :: t.chars ++ memberChars false ms
end

end Tree

namespace Json

mutual
theorem toList_write {t : Tree} (ht : t.Finite) (out : String) :
    (write out t).toList = out.toList ++ t.chars := by
  cases ht with
  | null => rw [write, String.toList_append]; rfl
  | bool b => cases b <;> rw [write, String.toList_append] <;> rfl
  | number hn => rw [write, String.toList_append, Number.toList_numberText hn, Tree.chars]
  | text s => exact toList_writeString out s
  | array hitems =>
    rw [write, toList_writeItems hitems, String.toList_push, List.append_assoc]
    rfl
  | object hmembers =>
    rw [write, toList_writeMembers hmembers, String.toList_push, List.append_assoc]
    rfl

theorem toList_writeItems {items : List Tree} (ht : ∀ t ∈ items, t.Finite) (out : String)
    (first : Bool) :
    ((writeItems out first items).push ']').toList = out.toList ++ Tree.itemChars first items := by
  cases items with
  | nil => exact String.toList_push _
  | cons t ts =>
    rw [writeItems, toList_writeItems fun s hs => ht s (List.mem_cons_of_mem _ hs),
      toList_write (ht t List.mem_cons_self)]
    cases first <;> simp [Tree.itemChars]

theorem toList_writeMembers {members : List (String × Tree)} (ht : ∀ m ∈ members, m.2.Finite)
    (out : String) (first : Bool) :
    ((writeMembers out first members).push '\x7d').toList =
      out.toList ++ Tree.memberChars first members := by
  cases members with
  | nil => exact String.toList_push _
  | cons m ms =>
    rw [writeMembers, toList_writeMembers fun s hs => ht s (List.mem_cons_of_mem _ hs),
      toList_write (ht m List.mem_cons_self), String.toList_push, toList_writeString]
    cases first <;> simp [Tree.memberChars]
end

/-- A text consists of the characters of its tree. -/
theorem toList_text {t : Tree} (ht : t.Finite) : (text t).toList = t.chars := by
  rw [text, toList_write ht]
  rfl

/-- The first character of a number. -/
theorem Numeral.Proper.exists_chars {n : Numeral} (hn : n.Proper) :
    ∃ c cs, n.chars = c :: cs ∧ (c = '-' ∨ c.isDigit = true) := by
  rw [Numeral.chars]
  cases n.negative with
  | true => exact ⟨'-', _, rfl, .inl rfl⟩
  | false =>
    cases hw : n.whole with
    | nil => exact absurd hw hn.ne_nil
    | cons c cs => exact ⟨c, _, rfl, .inr (hn.isDigit_whole c (hw ▸ List.mem_cons_self))⟩

theorem ne_of_numberStart {c : Char} (h : c = '-' ∨ c.isDigit = true) :
    Document.isBlank c = false ∧ c ≠ 'n' ∧ c ≠ 't' ∧ c ≠ 'f' ∧ c ≠ '"' ∧ c ≠ '[' ∧ c ≠ '\x7b' ∧
      c ≠ ']' := by
  refine ⟨?_, ?_, ?_, ?_, ?_, ?_, ?_, ?_⟩
  · rw [Bool.eq_false_iff]
    intro hb
    simp only [Document.isBlank, Bool.or_eq_true, beq_iff_eq] at hb
    rcases hb with ((rfl | rfl) | rfl) | rfl <;> revert h <;> decide
  all_goals
    rintro rfl
    revert h
    decide

/-- The text of a tree starts neither with a blank nor with a closing bracket. -/
theorem exists_chars {t : Tree} (ht : t.Finite) :
    ∃ c cs, t.chars = c :: cs ∧ Document.isBlank c = false ∧ c ≠ ']' := by
  cases ht with
  | null => exact ⟨_, _, rfl, by decide⟩
  | bool b => cases b <;> exact ⟨_, _, rfl, by decide⟩
  | number hn =>
    obtain ⟨c, cs, hc, hd⟩ := (Number.proper_numeral hn).exists_chars
    obtain ⟨hblank, -, -, -, -, -, -, hclose⟩ := ne_of_numberStart hd
    exact ⟨c, cs, by rw [Tree.chars, hc], hblank, hclose⟩
  | text s => exact ⟨_, _, rfl, by decide⟩
  | array hitems => exact ⟨_, _, rfl, by decide⟩
  | object hmembers => exact ⟨_, _, rfl, by decide⟩

namespace Document

theorem skipBlanks_cons {c : Char} (hc : isBlank c = false) (cs : List Char) :
    skipBlanks (c :: cs) = c :: cs :=
  List.dropWhile_cons_of_neg (by simp [hc])

theorem stops_cons {c : Char} (hc : c.isDigit = false ∧ c ≠ '.' ∧ c ≠ 'e' ∧ c ≠ 'E')
    {cs : List Char} : Stops (c :: cs) := by
  rintro _ ⟨⟩
  exact hc

theorem takeValue_number {n : Numeral} (hn : n.Proper) {steps : Nat} {rest : List Char}
    (hr : Stops rest) :
    takeValue (steps + 1) (n.chars ++ rest) = (.numeral n, some rest) := by
  have htake := hn.take? hr
  obtain ⟨c, cs, hc, hd⟩ := hn.exists_chars
  rw [hc, List.cons_append] at htake ⊢
  obtain ⟨hblank, hnull, ht, hf, hquote, hlist, hobject, -⟩ := ne_of_numberStart hd
  rw [takeValue, skipBlanks_cons hblank]
  split
  · next h => exact absurd (List.cons.inj h).1 hnull
  · next h => exact absurd (List.cons.inj h).1 ht
  · next h => exact absurd (List.cons.inj h).1 hf
  · next h => exact absurd (List.cons.inj h).1 hquote
  · next h => exact absurd (List.cons.inj h).1 hlist
  · next h => exact absurd (List.cons.inj h).1 hobject
  · rw [htake]

mutual
theorem takeValue_chars {t : Tree} (ht : t.Finite) (steps : Nat) (hs : t.chars.length ≤ steps)
    (rest : List Char) (hr : Stops rest) :
    takeValue steps (t.chars ++ rest) = (t.node, some rest) := by
  cases steps with
  | zero =>
    obtain ⟨c, cs, hc, -⟩ := exists_chars ht
    rw [hc] at hs
    cases hs
  | succ steps =>
    cases ht with
    | null => rfl
    | bool b => cases b <;> rfl
    | number hn => exact takeValue_number (Number.proper_numeral hn) hr
    | text s =>
      simp only [Tree.chars, stringChars, List.cons_append, takeValue,
        skipBlanks_cons (show isBlank '"' = false by decide), takeString?_closingChars]
      rfl
    | @array items hitems =>
      cases items with
      | nil => rfl
      | cons t ts =>
        obtain ⟨c, cs, hc, hblank, hclose⟩ := exists_chars (hitems t List.mem_cons_self)
        have hchars : Tree.itemChars true (t :: ts) = c :: (cs ++ Tree.itemChars false ts) := by
          rw [Tree.itemChars, hc]
          rfl
        have hitems := takeItems_chars hitems (List.cons_ne_nil t ts) steps
          (by rw [Tree.chars, List.length_cons] at hs; omega) [] rest
        rw [hchars, List.cons_append] at hitems
        simp only [Tree.chars, hchars, List.cons_append, takeValue,
          skipBlanks_cons (show isBlank '[' = false by decide), skipBlanks_cons hblank]
        split
        · next h => exact absurd (List.cons.inj h).1 hclose
        · exact hitems
    | @object members hmembers =>
      cases members with
      | nil => rfl
      | cons m ms =>
        obtain ⟨name, t⟩ := m
        have hmembers := takeMembers_chars hmembers (List.cons_ne_nil (name, t) ms)
          steps (by rw [Tree.chars, List.length_cons] at hs; omega) [] rest
        obtain ⟨cs, hchars⟩ :
            ∃ cs, Tree.memberChars true ((name, t) :: ms) = '"' :: cs := ⟨_, rfl⟩
        rw [hchars, List.cons_append] at hmembers
        simp only [Tree.chars, hchars, List.cons_append, takeValue,
          skipBlanks_cons (show isBlank '\x7b' = false by decide),
          skipBlanks_cons (show isBlank '"' = false by decide)]
        exact hmembers

theorem takeItems_chars {items : List Tree} (ht : ∀ t ∈ items, t.Finite) (hne : items ≠ [])
    (steps : Nat) (hs : (Tree.itemChars true items).length ≤ steps) (done : List Node)
    (rest : List Char) :
    takeItems steps done (Tree.itemChars true items ++ rest) =
      (.array (done.reverse ++ Tree.itemNodes items) true, some rest) := by
  cases items with
  | nil => exact absurd rfl hne
  | cons t ts =>
    have hchars : Tree.itemChars true (t :: ts) = t.chars ++ Tree.itemChars false ts := rfl
    rw [hchars, List.length_append] at hs
    have hpos : 0 < (Tree.itemChars false ts).length := by cases ts <;> exact Nat.succ_pos _
    cases steps with
    | zero => omega
    | succ steps =>
      have hvalue := takeValue_chars (ht t List.mem_cons_self) steps (by omega)
        (Tree.itemChars false ts ++ rest) (by
          cases ts <;> exact stops_cons (by decide))
      rw [hchars, List.append_assoc, takeItems, hvalue]
      cases ts with
      | nil =>
        simp only [Tree.itemChars, Tree.itemNodes, List.cons_append, List.nil_append,
          skipBlanks_cons (show isBlank ']' = false by decide), List.reverse_cons]
      | cons u us =>
        have hcomma : Tree.itemChars false (u :: us) = ',' :: Tree.itemChars true (u :: us) := rfl
        rw [hcomma, List.length_cons] at hs
        have htail := takeItems_chars (fun s hs => ht s (List.mem_cons_of_mem _ hs))
          (List.cons_ne_nil u us) steps (by omega) (t.node :: done) rest
        simp only [hcomma, List.cons_append, skipBlanks_cons (show isBlank ',' = false by decide),
          htail, List.reverse_cons, List.append_assoc, List.nil_append, Tree.itemNodes]

theorem takeMembers_chars {members : List (String × Tree)} (ht : ∀ m ∈ members, m.2.Finite)
    (hne : members ≠ []) (steps : Nat) (hs : (Tree.memberChars true members).length ≤ steps)
    (done : List (Option String × Node)) (rest : List Char) :
    takeMembers steps done (Tree.memberChars true members ++ rest) =
      (.object (done.reverse ++ Tree.memberNodes members) true, some rest) := by
  cases members with
  | nil => exact absurd rfl hne
  | cons m ms =>
    obtain ⟨name, t⟩ := m
    have hchars : Tree.memberChars true ((name, t) :: ms) =
        stringChars name ++ ':' :: t.chars ++ Tree.memberChars false ms := rfl
    rw [hchars, List.length_append, List.length_append, List.length_cons] at hs
    have hpos : 0 < (Tree.memberChars false ms).length := by cases ms <;> exact Nat.succ_pos _
    cases steps with
    | zero => omega
    | succ steps =>
      have hvalue := takeValue_chars (t := t) (ht _ List.mem_cons_self) steps (by omega)
        (Tree.memberChars false ms ++ rest) (by
          cases ms <;> exact stops_cons (by decide))
      simp only [hchars, List.append_assoc, List.cons_append, stringChars, takeMembers,
        skipBlanks_cons (show isBlank '"' = false by decide),
        skipBlanks_cons (show isBlank ':' = false by decide), takeString?_closingChars, hvalue]
      cases ms with
      | nil =>
        simp only [Tree.memberChars, Tree.memberNodes, List.cons_append, List.nil_append,
          skipBlanks_cons (show isBlank '\x7d' = false by decide), List.reverse_cons]
      | cons u us =>
        have hcomma : Tree.memberChars false (u :: us) = ',' :: Tree.memberChars true (u :: us) :=
          rfl
        rw [hcomma, List.length_cons] at hs
        have htail := takeMembers_chars (fun s hs => ht s (List.mem_cons_of_mem _ hs))
          (List.cons_ne_nil u us) steps (by omega) ((some name, t.node) :: done) rest
        simp only [hcomma, List.cons_append, skipBlanks_cons (show isBlank ',' = false by decide),
          htail, List.reverse_cons, List.append_assoc, List.nil_append, Tree.memberNodes]
end

/-- The text of a tree is the document that shows the tree. -/
theorem ofChars_chars {t : Tree} (ht : t.Finite) : ofChars t.chars = ⟨t.node, true⟩ := by
  have hvalue := takeValue_chars ht _ (Nat.le_succ _) [] nofun
  rw [List.append_nil] at hvalue
  rw [ofChars, hvalue]
  rfl

end Document

end Json

end EventPipeline
