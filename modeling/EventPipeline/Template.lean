import EventPipeline.Json.Writer
import EventPipeline.Text.Search

/-!
Templates: texts in which the names of variables are replaced by their values. One variable is
replaced after the other, from the left, and what was put in is not looked at again for the same
variable. An occurrence between `(` and `)` makes them a *group*: the group stands without its
brackets when the variable is defined, and is left out when it is not. A backslash before a
bracket makes it an ordinary character.
-/

namespace EventPipeline.Template

/-- A name that may occur in a template, and its value if it is defined. -/
structure Variable where
  name : String
  value : Option Tree

/-- A value as it stands inside a text. -/
def rendered : Tree → String
  | .text s => s
  | t => Json.text t

/-- A text and a place in it: what stands before the place, last character first, and after it. -/
structure Cursor where
  before : List Char
  after : List Char
deriving DecidableEq, Repr

/-- The text around the place. -/
def Cursor.text (c : Cursor) : List Char := c.before.reverse ++ c.after

/-- The brackets around an occurrence, and the text that they cut it into. -/
structure Group where
  /-- Before the opening bracket, last character first. -/
  outside : List Char
  /-- Between the opening bracket and the occurrence, last character first. -/
  lead : List Char
  /-- Between the occurrence and the closing bracket. -/
  tail : List Char
  /-- After the closing bracket. -/
  rest : List Char
deriving DecidableEq, Repr

/--
The group around an occurrence of `name`: from the nearest `(` before it to the nearest `)` after
its start. A name that begins with the one or holds the other is in no group.
-/
def group? (before name after : List Char) : Option Group :=
  if name.head? = some '(' || name.contains ')' then none
  else
    let lead := before.takeWhile (· != '(')
    let tail := after.takeWhile (· != ')')
    match before.dropWhile (· != '('), after.dropWhile (· != ')') with
    | _ :: outside, _ :: rest =>
      if outside.head? = some '\\' || (name ++ tail).getLast? = some '\\' then none
      else some { outside, lead, tail, rest }
    | _, _ => none

/-- Replaces the next occurrence of `name`, and moves behind what was put in its place. -/
def advance (name : List Char) (value : Option (List Char)) (c : Cursor) : Option Cursor :=
  match Text.find? name c.before c.after with
  | none => none
  | some (before, after) =>
    match group? before name after, value with
    | none, value => some ⟨(value.getD name).reverse ++ before, after⟩
    | some g, some value =>
      some ⟨g.tail.reverse ++ (value.reverse ++ (g.lead ++ g.outside)), g.rest⟩
    | some g, none => some ⟨g.outside, g.rest⟩

theorem group?_rest_lt {before name after : List Char} {g : Group}
    (h : group? before name after = some g) : g.rest.length < after.length := by
  simp only [group?] at h
  split at h
  · simp at h
  · split at h
    · next x outside y rest _ hs =>
      split at h
      · simp at h
      · obtain rfl := Option.some.inj h
        have := (List.dropWhile_sublist (l := after) (· != ')')).length_le
        rw [hs] at this
        exact this
    · simp at h

/-- Each replacement uses up an occurrence of the name. -/
theorem advance_after_le {name : List Char} {value : Option (List Char)} {c d : Cursor}
    (h : advance name value c = some d) : d.after.length + name.length ≤ c.after.length := by
  unfold advance at h
  split at h
  · simp at h
  · next before after hf =>
    have hle := Text.find?_length_le hf
    split at h
    · obtain rfl := Option.some.inj h
      exact hle
    · next g value hg =>
      have := group?_rest_lt hg
      obtain rfl := Option.some.inj h
      simp only
      omega
    · next g hg =>
      have := group?_rest_lt hg
      obtain rfl := Option.some.inj h
      simp only
      omega

/-- Replaces all occurrences of a name from the cursor on. -/
def substitute (name : List Char) (hname : name ≠ []) (value : Option (List Char)) (c : Cursor) :
    List Char :=
  match _h : advance name value c with
  | none => c.text
  | some d => substitute name hname value d
termination_by c.after.length
decreasing_by
  have := advance_after_le _h
  have := List.length_pos_iff.mpr hname
  omega

/--
Fills in the variables in their order. When the text is exactly the name of the variable whose
turn it is, its value is the result, whatever it is; otherwise the result is a text.
-/
def fill (text : List Char) : List Variable → Tree
  | [] => .text (String.ofList text)
  | v :: vs =>
    if hname : v.name.toList = [] then fill text vs
    else if text = v.name.toList then v.value.getD (.text v.name)
    else
      let value := v.value.map fun t => (rendered t).toList
      fill (substitute v.name.toList hname value ⟨[], text⟩) vs

/-- Fills variables into a template. -/
def interpolate (template : String) (vars : List Variable) : Tree :=
  fill template.toList vars

end EventPipeline.Template
