import EventPipeline.Json.Document
import EventPipeline.Problem

/-!
Reading trees from JSON texts. Lists and objects may nest 127 deep. Of several members with one
name the last is kept.
-/

namespace EventPipeline.Json

/-- How deep lists and objects may nest. -/
def nestingLimit : Nat := 127

mutual
/-- The tree that a value stands for; `room` is how many levels it may nest. -/
def Node.tree? (room : Nat) : Node → Option Tree
  | .null => some .null
  | .bool b => some (.bool b)
  | .numeral n => n.number?.map .number
  | .text s => s.map .text
  | .array items closed =>
    if room = 0 || !closed then none else (itemTrees? (room - 1) [] items).map .array
  | .object members closed =>
    if room = 0 || !closed then none else (memberTrees? (room - 1) [] members).map .object
  | .broken => none

/-- The trees of the elements, after those in `done`, which come last one first. -/
def itemTrees? (room : Nat) (done : List Tree) : List Node → Option (List Tree)
  | [] => some done.reverse
  | n :: ns =>
    match n.tree? room with
    | some t => itemTrees? room (t :: done) ns
    | none => none

/-- The trees of the members, added to those in `done`. -/
def memberTrees? (room : Nat) (done : Keyed Tree) :
    List (Option String × Node) → Option (Keyed Tree)
  | [] => some done
  | (some name, n) :: ns =>
    match n.tree? room with
    | some t => memberTrees? room (Keyed.insert name t done) ns
    | none => none
  | (none, _) :: _ => none
end

/-- The tree that a text holds. -/
def read? (s : String) : Option Tree :=
  let document := Document.ofChars s.toList
  (document.value.tree? nestingLimit).filter fun _ => document.ended

/-- The tree that a text holds; nothing but the text itself can be wrong with it. -/
def read (s : String) : Except Problem Tree :=
  match read? s with
  | some t => .ok t
  | none => .error .malformed

/-- The tree that the bytes of a text hold. -/
def decode (bytes : ByteArray) : Except Problem Tree :=
  match String.fromUTF8? bytes with
  | some s => read s
  | none => .error .malformed

end EventPipeline.Json
