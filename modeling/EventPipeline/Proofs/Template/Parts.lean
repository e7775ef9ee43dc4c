import EventPipeline.Proofs.Template.Steps

/-!
Templates in which each group holds one name, as lists of their parts. A part has a meaning of its
own (`Part.meaning`), whatever the others are and in whatever order the variables are filled in.
The turn of a variable gives a part its meaning (`Readable.substitute_append_part`), except a name
outside of groups that is taken to be in one.
-/

namespace EventPipeline.Template

/-- Texts without the characters that names and groups are made of. -/
def IsLiteral (text : List Char) : Prop := ∀ x ∈ text, x ∉ ['$', '(', ')', '\\']

/-- The characters of the text are looked at, not all characters that there are. -/
instance (text : List Char) : Decidable (IsLiteral text) :=
  decidable_of_iff (text.all fun x => decide (x ∉ ['$', '(', ')', '\\'])) (by
    simp only [IsLiteral, List.all_eq_true, decide_eq_true_eq])

/-- Names begin with a dollar sign, which stands nowhere else. -/
structure IsName (name : String) : Prop where
  head : name.toList.head? = some '$'
  tail : IsLiteral name.toList.tail

instance (name : String) : Decidable (IsName name) :=
  decidable_of_iff (name.toList.head? = some '$' ∧ IsLiteral name.toList.tail)
    ⟨fun h => ⟨h.1, h.2⟩, fun h => ⟨h.head, h.tail⟩⟩

/-- A part of a template. -/
inductive Part where
  | literal (x : Char)
  | name (name : String)
  | group (lead : List Char) (name : String) (tail : List Char)
deriving DecidableEq

namespace Part

/-- What stands for a part in the template. -/
def chars : Part → List Char
  | .literal x => [x]
  | .name n => n.toList
  | .group lead n tail => '(' :: (lead ++ n.toList ++ tail) ++ [')']

/-- What stands for a part in the filled template, when the defined variables have these texts. -/
def meaning (text? : String → Option (List Char)) : Part → List Char
  | .literal x => [x]
  | .name n => (text? n).getD n.toList
  | .group lead n tail => (text? n).elim [] fun text => lead ++ text ++ tail

def name? : Part → Option String
  | .literal _ => none
  | .name n => some n
  | .group _ n _ => some n

/-- The text of a part around its name. -/
def literals : Part → List Char
  | .literal x => [x]
  | .name _ => []
  | .group lead _ tail => lead ++ tail

/-- What stands for a part when some variables have had their turn. -/
def shown (text? : String → Option (List Char)) (done : List String) (p : Part) : List Char :=
  if ∀ n ∈ p.name?, n ∈ done then p.meaning text? else p.chars

end Part

/-- Templates made of literal characters, names of which none begins another one, and groups. -/
structure Readable (names : List String) (parts : List Part) : Prop where
  nodup : names.Nodup
  apart : ∀ m ∈ names, ∀ n ∈ names, m.toList <+: n.toList → m = n
  named : ∀ n ∈ names, IsName n
  listed : ∀ p ∈ parts, ∀ n ∈ p.name?, n ∈ names
  literal : ∀ p ∈ parts, IsLiteral p.literals
  /-- Something stands outside of names and groups. -/
  anchored : ∃ x, .literal x ∈ parts

section

variable {name : List Char} {value : Option (List Char)} {before after : List Char}
  (hname : name ≠ [])

/-- The cursor passes over a text in which the name does not begin. -/
theorem substitute_append {text : List Char}
    (h : ∀ u v, text = u ++ v → v ≠ [] → ¬ name <+: v ++ after) :
    substitute name hname value ⟨before, text ++ after⟩ =
      substitute name hname value ⟨text.reverse ++ before, after⟩ := by
  induction text generalizing before with
  | nil => rfl
  | cons x text ih =>
    have hstart : ¬ name <+: x :: (text ++ after) := h [] (x :: text) rfl (List.cons_ne_nil x text)
    rw [List.cons_append, substitute_cons_of_not_prefix hname hstart,
      ih fun u v huv => h (x :: u) v (by rw [huv]; rfl)]
    simp

theorem substitute_append_of_notMem {text : List Char} (hhead : name.head? = some '$')
    (htext : '$' ∉ text) :
    substitute name hname value ⟨before, text ++ after⟩ =
      substitute name hname value ⟨text.reverse ++ before, after⟩ := by
  refine substitute_append hname fun u v huv hv hprefix => htext ?_
  obtain ⟨x, v, rfl⟩ := List.exists_cons_of_ne_nil hv
  obtain ⟨y, ys, rfl⟩ := List.exists_cons_of_ne_nil hname
  obtain rfl : y = '$' := Option.some.inj hhead
  obtain rfl := (List.cons_prefix_cons.mp hprefix).1
  simp [huv]

end

theorem IsName.eq_cons {n : String} (h : IsName n) :
    ∃ rest, n.toList = '$' :: rest ∧ IsLiteral rest := by
  obtain ⟨rest, hrest⟩ := List.head?_eq_some_iff.mp h.head
  exact ⟨rest, hrest, by simpa [hrest] using h.tail⟩

theorem IsName.ne_nil {n : String} (h : IsName n) : n.toList ≠ [] := by
  obtain ⟨rest, hrest, -⟩ := h.eq_cons
  simp [hrest]

theorem IsName.notMem {n : String} (h : IsName n) {x : Char} (hx : x ∈ ['(', ')', '\\']) :
    x ∉ n.toList := by
  obtain ⟨rest, hrest, hliteral⟩ := h.eq_cons
  rw [hrest, List.mem_cons, not_or]
  refine ⟨?_, fun hmem => hliteral x hmem (List.mem_cons_of_mem _ hx)⟩
  rintro rfl
  simp at hx

/-- The cursor passes over another name. -/
theorem substitute_append_name {m n : String} (hm : IsName m) (hn : IsName n)
    (hmn : ¬ m.toList <+: n.toList) (hnm : ¬ n.toList <+: m.toList)
    {value : Option (List Char)} {before after : List Char} :
    substitute n.toList hn.ne_nil value ⟨before, m.toList ++ after⟩ =
      substitute n.toList hn.ne_nil value ⟨m.toList.reverse ++ before, after⟩ := by
  obtain ⟨rest, hrest, hliteral⟩ := hm.eq_cons
  have hstart : ¬ n.toList <+: '$' :: (rest ++ after) := by
    rw [← List.cons_append, ← hrest]
    intro hprefix
    rcases List.prefix_or_prefix_of_prefix hprefix (List.prefix_append m.toList after) with h | h
    · exact hnm h
    · exact hmn h
  rw [hrest, List.cons_append, substitute_cons_of_not_prefix _ hstart,
    substitute_append_of_notMem _ hn.head fun hmem => hliteral _ hmem (by simp)]
  simp

variable {names order done : List String} {parts : List Part}
  {text? : String → Option (List Char)} {n : String} {p : Part} {before after : List Char}

theorem Part.literal_meaning (hliteral : IsLiteral p.literals)
    (htext : ∀ m ∈ p.name?, ∀ text ∈ text? m, IsLiteral text) :
    IsLiteral (p.meaning text?) ∨ ∃ m, p = .name m ∧ p.meaning text? = m.toList := by
  cases p with
  | literal x => exact .inl hliteral
  | name m =>
    cases hm : text? m with
    | none => exact .inr ⟨m, rfl, by simp [meaning, hm]⟩
    | some text => exact .inl (by simpa [meaning, hm] using htext m rfl text hm)
  | group lead m tail =>
    refine .inl ?_
    cases hm : text? m with
    | none => simp [meaning, hm, IsLiteral]
    | some text =>
      have := htext m rfl text hm
      simp only [Part.literals, IsLiteral, List.mem_append] at hliteral this
      simp only [meaning, hm, Option.elim_some, IsLiteral, List.mem_append]
      grind

theorem Part.shown_cons_of_ne (hne : n ∉ p.name?) :
    p.shown text? (n :: done) = p.shown text? done := by
  have hiff : (∀ m ∈ p.name?, m ∈ n :: done) ↔ ∀ m ∈ p.name?, m ∈ done :=
    forall₂_congr fun m hm => List.mem_cons.trans (or_iff_right fun hmn => hne (hmn ▸ hm))
  simp only [shown, hiff]

theorem Part.shown_of_mem (h : p.name? = some n) (hn : n ∈ done) :
    p.shown text? done = p.meaning text? :=
  if_pos (by simpa [h] using hn)

theorem Part.shown_of_notMem (h : p.name? = some n) (hn : n ∉ done) :
    p.shown text? done = p.chars :=
  if_neg (by simpa [h] using hn)

namespace Readable

variable (h : Readable names parts) (htext : ∀ m ∈ names, ∀ text ∈ text? m, IsLiteral text)

include h

theorem isName (hp : p ∈ parts) {m : String} (hm : m ∈ p.name?) : IsName m :=
  h.named m (h.listed p hp m hm)

theorem substitute_append_name (hn : n ∈ names) {m : String} (hm : m ∈ names) (hne : n ≠ m)
    {value : Option (List Char)} :
    substitute n.toList (h.named n hn).ne_nil value ⟨before, m.toList ++ after⟩ =
      substitute n.toList (h.named n hn).ne_nil value ⟨m.toList.reverse ++ before, after⟩ :=
  Template.substitute_append_name (h.named m hm) (h.named n hn)
    (fun hmn => hne (h.apart m hm n hn hmn).symm) fun hnm => hne (h.apart n hn m hm hnm)

theorem substitute_append_of_literal (hn : n ∈ names) {text : List Char} (hliteral : '$' ∉ text)
    {value : Option (List Char)} :
    substitute n.toList (h.named n hn).ne_nil value ⟨before, text ++ after⟩ =
      substitute n.toList (h.named n hn).ne_nil value ⟨text.reverse ++ before, after⟩ :=
  substitute_append_of_notMem _ (h.named n hn).head hliteral

theorem encloses {lead tail : List Char} (hp : .group lead n tail ∈ parts) (hbefore : '\\' ∉ before)
    (after : List Char) :
    Group.Encloses ⟨before, lead.reverse, tail, after⟩ (lead.reverse ++ '(' :: before) n.toList
      (tail ++ ')' :: after) := by
  have hname := h.isName hp (m := n) rfl
  have hlead : ∀ x ∈ lead, x ∉ ['$', '(', ')', '\\'] :=
    fun x hx => h.literal _ hp x (List.mem_append_left tail hx)
  have htail : ∀ x ∈ tail, x ∉ ['$', '(', ')', '\\'] :=
    fun x hx => h.literal _ hp x (List.mem_append_right lead hx)
  constructor
  case start => simp [hname.head]
  case whole => exact hname.notMem (by simp)
  case before_eq => rfl
  case lead => exact fun hx => hlead '(' (List.mem_reverse.mp hx) (by simp)
  case after_eq => rfl
  case tail => exact fun hx => htail ')' hx (by simp)
  case opens => exact fun hx => hbefore (List.mem_of_mem_head? hx)
  case closes =>
    refine fun hx => (List.mem_append.mp (List.mem_of_getLast? hx)).elim (hname.notMem (by simp)) ?_
    exact fun hx => htail '\\' hx (by simp)

include htext

/-- The cursor passes over parts without the name, and over those that have their meaning. -/
theorem substitute_append_shown (hn : n ∈ names) (hp : p ∈ parts) (hne : n ∉ p.name?)
    {value : Option (List Char)} :
    substitute n.toList (h.named n hn).ne_nil value ⟨before, p.shown text? done ++ after⟩ =
      substitute n.toList (h.named n hn).ne_nil value
        ⟨(p.shown text? done).reverse ++ before, after⟩ := by
  have hliteral := h.literal p hp
  have hlisted := h.listed p hp
  have hdollar : ∀ {text : List Char}, IsLiteral text → '$' ∉ text :=
    fun hliteral hmem => hliteral _ hmem (by simp)
  rw [Part.shown]
  split
  · rcases Part.literal_meaning hliteral fun m hm => htext m (hlisted m hm) with
      hmeaning | ⟨m, rfl, hmeaning⟩
    · exact h.substitute_append_of_literal hn (hdollar hmeaning)
    · rw [hmeaning]
      exact h.substitute_append_name hn (hlisted m rfl) fun hnm => hne (hnm ▸ rfl)
  · cases p with
    | literal x => exact h.substitute_append_of_literal hn (hdollar hliteral)
    | name m => exact h.substitute_append_name hn (hlisted m rfl) fun hnm => hne (hnm ▸ rfl)
    | group lead m tail =>
      have hlead : '$' ∉ '(' :: lead := by
        simpa using hdollar fun x hx => hliteral x (List.mem_append_left tail hx)
      have htail : '$' ∉ tail ++ [')'] := by
        simpa using hdollar fun x hx => hliteral x (List.mem_append_right lead hx)
      have hchars : Part.chars (.group lead m tail) =
          '(' :: lead ++ (m.toList ++ (tail ++ [')'])) := by simp [Part.chars]
      rw [hchars, List.append_assoc, h.substitute_append_of_literal hn hlead, List.append_assoc,
        h.substitute_append_name hn (hlisted m rfl) fun hnm => hne (hnm ▸ rfl),
        h.substitute_append_of_literal hn htail]
      simp

/-- Brackets are those of groups whose variable has not had its turn. -/
theorem of_mem_shown (hp : p ∈ parts) {x : Char} (hx : x ∈ ['(', ')', '\\'])
    (hmem : x ∈ p.shown text? done) :
    x ≠ '\\' ∧ ∃ lead m tail, p = .group lead m tail ∧ m ∉ done := by
  have hliteral := h.literal p hp
  have hlisted := h.listed p hp
  have hspecial : x ∈ ['$', '(', ')', '\\'] := List.mem_cons_of_mem _ hx
  rw [Part.shown] at hmem
  split at hmem
  · rcases Part.literal_meaning hliteral fun m hm => htext m (hlisted m hm) with
      hmeaning | ⟨m, rfl, hmeaning⟩
    · exact absurd hspecial (hmeaning x hmem)
    · exact absurd (hmeaning ▸ hmem) ((h.named m (hlisted m rfl)).notMem hx)
  · next hdone =>
    cases p with
    | literal y => exact absurd hspecial (hliteral x hmem)
    | name m => exact absurd hmem ((h.named m (hlisted m rfl)).notMem hx)
    | group lead m tail =>
      refine ⟨?_, lead, m, tail, rfl, by simpa [Part.name?] using hdone⟩
      rintro rfl
      have := (h.named m (hlisted m rfl)).notMem hx
      have := mt (hliteral '\\') (by simp)
      simp_all [Part.chars, Part.literals]

/-- The turn of a variable gives a part its meaning. -/
theorem substitute_append_part (hn : n ∈ names) (hdone : n ∉ done) (hp : p ∈ parts)
    (hbefore : '\\' ∉ before) (hplain : p = .name n → group? before n.toList after = none) :
    substitute n.toList (h.named n hn).ne_nil (text? n) ⟨before, p.shown text? done ++ after⟩ =
      substitute n.toList (h.named n hn).ne_nil (text? n)
        ⟨(p.shown text? (n :: done)).reverse ++ before, after⟩ := by
  by_cases hne : n ∈ p.name?
  swap
  · rw [h.substitute_append_shown htext hn hp hne, Part.shown_cons_of_ne hne]
  have hliteral := h.literal p hp
  rw [Part.shown_of_notMem hne hdone, Part.shown_of_mem hne List.mem_cons_self]
  cases p with
  | literal x => cases hne
  | name m =>
    obtain rfl := Option.some.inj hne
    exact substitute_plain _ (hplain rfl)
  | group lead m tail =>
    obtain rfl := Option.some.inj hne
    have hencloses := h.encloses hp hbefore after
    have hdollar : '$' ∉ '(' :: lead := by
      simpa using fun hx => hliteral '$' (List.mem_append_left tail hx) (by simp)
    have hchars : Part.chars (.group lead m tail) ++ after =
        ('(' :: lead) ++ (m.toList ++ (tail ++ ')' :: after)) := by simp [Part.chars]
    have hbefore' : ('(' :: lead).reverse ++ before = lead.reverse ++ '(' :: before := by simp
    rw [hchars, h.substitute_append_of_literal hn hdollar, hbefore']
    cases hm : text? m with
    | none =>
      rw [substitute_removed _ hencloses]
      simp [Part.meaning, hm]
    | some text =>
      rw [substitute_unwrapped _ hencloses]
      simp [Part.meaning, hm]

/-- Only names begin with a dollar sign. -/
theorem exists_of_head?_shown (hp : p ∈ parts) (hhead : (p.shown text? done).head? = some '$') :
    ∃ m, p = .name m ∧ p.shown text? done = m.toList := by
  have hliteral := h.literal p hp
  rw [Part.shown] at hhead ⊢
  split at hhead
  · next hdone =>
    rw [if_pos hdone]
    refine (Part.literal_meaning hliteral fun m hm => htext m (h.listed p hp m hm)).resolve_left ?_
    exact fun hmeaning => hmeaning '$' (List.mem_of_mem_head? hhead) (by simp)
  · next hdone =>
    rw [if_neg hdone]
    cases p with
    | literal x => exact absurd (hliteral '$' (List.mem_of_mem_head? hhead)) (by simp)
    | name m => exact ⟨m, rfl, rfl⟩
    | group lead m tail => simp [Part.chars] at hhead

/-- A literal character outside of groups keeps the text apart from the names. -/
theorem flatMap_shown_ne (hn : n ∈ names) : parts.flatMap (Part.shown text? done) ≠ n.toList := by
  obtain ⟨x, hx⟩ := h.anchored
  have hone : ∀ ps : List Part, .literal x ∈ ps → x ∈ ps.flatMap (Part.shown text? done) :=
    fun ps hx => List.mem_flatMap.mpr ⟨_, hx, by simp [Part.shown, Part.meaning, Part.chars]⟩
  suffices ∀ ps : List Part, (∀ p ∈ ps, p ∈ parts) → .literal x ∈ ps →
      ps.flatMap (Part.shown text? done) ≠ n.toList from this parts (fun _ hp => hp) hx
  intro ps hps hx heq
  induction ps with
  | nil => cases hx
  | cons p ps ih =>
    obtain ⟨hp, hps⟩ := List.forall_mem_cons.mp hps
    rw [List.flatMap_cons] at heq
    by_cases hshown : p.shown text? done = []
    · rw [hshown, List.nil_append] at heq
      refine ih hps ((List.mem_cons.mp hx).resolve_left ?_) heq
      rintro rfl
      simp [Part.shown, Part.meaning, Part.chars] at hshown
    · have hhead : (p.shown text? done).head? = some '$' := by
        rw [← (h.named n hn).head, ← heq, List.head?_append_of_ne_nil _ hshown]
      obtain ⟨m, rfl, hm⟩ := h.exists_of_head?_shown htext hp hhead
      rw [hm] at heq
      obtain rfl := h.apart m (h.listed _ hp m rfl) n hn ⟨_, heq⟩
      have hrest := hone ps (by simpa using hx)
      rw [List.append_right_eq_self.mp heq] at hrest
      cases hrest

end Readable

end EventPipeline.Template
