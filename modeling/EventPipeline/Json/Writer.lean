import EventPipeline.Binary64.Text
import EventPipeline.Json.Chars
import EventPipeline.Tree.Basic

/-!
Writing trees as JSON texts, without blanks. Members are written in the order in which they are
listed; in a well-formed tree that is the order of their names.
-/

namespace EventPipeline.Json

def numberText : Number → String
  | .integer n => toString n.value
  | .double x => x.scientificText

/-- Appends a string and its quotes to a text. -/
def writeString (out : String) (s : String) : String :=
  (s.toList.foldl (fun out c => (escaped c).foldl String.push out) (out.push '"')).push '"'

mutual
/-- Appends a tree to a text. -/
def write (out : String) : Tree → String
  | .null => out ++ "null"
  | .bool b => out ++ (if b then "true" else "false")
  | .number n => out ++ numberText n
  | .text s => writeString out s
  | .array items => (writeItems (out.push '[') true items).push ']'
  | .object members => (writeMembers (out.push '\x7b') true members).push '\x7d'

/-- Appends the elements of an array; the first one is not preceded by a comma. -/
def writeItems (out : String) (first : Bool) : List Tree → String
  | [] => out
  | t :: ts => writeItems (write (if first then out else out.push ',') t) false ts

/-- Appends the members of an object. -/
def writeMembers (out : String) (first : Bool) : List (String × Tree) → String
  | [] => out
  | (name, t) :: ms =>
    let out := writeString (if first then out else out.push ',') name
    writeMembers (write (out.push ':') t) false ms
end

/-- The text of a tree. -/
def text (t : Tree) : String := write "" t

/-- The bytes of a tree's text. -/
def encode (t : Tree) : ByteArray := (text t).toUTF8

end EventPipeline.Json
