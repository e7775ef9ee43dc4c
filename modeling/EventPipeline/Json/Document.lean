import EventPipeline.Json.Chars
import EventPipeline.Json.Numeral

/-!
JSON texts as documents. A document shows the text as far as it follows the grammar, with every
numeral and member as written: readers of typed data walk it from the left and report the first
thing that is not as they want it, before anything that stands further on. Where the text breaks
the grammar stands `broken`, and every list or object around that place is not `closed`.
-/

namespace EventPipeline.Json

inductive Node where
  | null
  | bool (b : Bool)
  | numeral (n : Numeral)
  /-- A string; `none` if its escapes leave half of a character alone. -/
  | text (s : Option String)
  | array (items : List Node) (closed : Bool)
  | object (members : List (Option String × Node)) (closed : Bool)
  | broken
deriving Inhabited

/-- A document: its value, and whether nothing but blanks follows it. -/
structure Document where
  value : Node
  ended : Bool

namespace Document

def isBlank (c : Char) : Bool := c == ' ' || c == '\n' || c == '\r' || c == '\t'

def skipBlanks (cs : List Char) : List Char := cs.dropWhile isBlank

mutual
/--
Takes a value off the front of a text; no text is left where the grammar is broken. Every list,
member and element uses up some of the text, so its length bounds the steps.
-/
def takeValue : (steps : Nat) → List Char → Node × Option (List Char)
  | 0, _ => (.broken, none)
  | steps + 1, cs =>
    match skipBlanks cs with
    | 'n' :: 'u' :: 'l' :: 'l' :: rest => (.null, some rest)
    | 't' :: 'r' :: 'u' :: 'e' :: rest => (.bool true, some rest)
    | 'f' :: 'a' :: 'l' :: 's' :: 'e' :: rest => (.bool false, some rest)
    | '"' :: rest =>
      match takeString? {} rest with
      | some (s, rest) => (.text s, some rest)
      | none => (.broken, none)
    | '[' :: rest =>
      match skipBlanks rest with
      | ']' :: rest => (.array [] true, some rest)
      | rest => takeItems steps [] rest
    | '\x7b' :: rest =>
      match skipBlanks rest with
      | '\x7d' :: rest => (.object [] true, some rest)
      | rest => takeMembers steps [] rest
    | rest =>
      match Numeral.take? rest with
      | some (n, rest) => (.numeral n, some rest)
      | none => (.broken, none)

/--
Takes the elements of an array and its closing bracket; `done` holds those before. An array that
does not go on as it should ends in `broken`, so that no one takes it for too short.
-/
def takeItems : (steps : Nat) → (done : List Node) → List Char → Node × Option (List Char)
  | 0, done, _ => (.array done.reverse false, none)
  | steps + 1, done, cs =>
    match takeValue steps cs with
    | (item, none) => (.array (item :: done).reverse false, none)
    | (item, some rest) =>
      match skipBlanks rest with
      | ',' :: rest => takeItems steps (item :: done) rest
      | ']' :: rest => (.array (item :: done).reverse true, some rest)
      | _ => (.array (.broken :: item :: done).reverse false, none)

/-- Takes the members of an object and its closing brace; `done` holds those before. -/
def takeMembers :
    (steps : Nat) → (done : List (Option String × Node)) → List Char → Node × Option (List Char)
  | 0, done, _ => (.object done.reverse false, none)
  | steps + 1, done, cs =>
    match skipBlanks cs with
    | '"' :: rest =>
      match takeString? {} rest with
      | none => (.object done.reverse false, none)
      | some (name, rest) =>
        match skipBlanks rest with
        | ':' :: rest =>
          match takeValue steps rest with
          | (value, none) => (.object ((name, value) :: done).reverse false, none)
          | (value, some rest) =>
            match skipBlanks rest with
            | ',' :: rest => takeMembers steps ((name, value) :: done) rest
            | '\x7d' :: rest => (.object ((name, value) :: done).reverse true, some rest)
            | _ => (.object ((name, value) :: done).reverse false, none)
        | _ => (.object ((name, .broken) :: done).reverse false, none)
    | _ => (.object done.reverse false, none)
end

/-- The document that a text holds. -/
def ofChars (cs : List Char) : Document :=
  match takeValue (cs.length + 1) cs with
  | (value, none) => ⟨value, false⟩
  | (value, some rest) => ⟨value, (skipBlanks rest).isEmpty⟩

end Document

mutual
/-- Whether a value follows the grammar to its end. -/
def Node.intact : Node → Bool
  | .array items closed => closed && itemsIntact items
  | .object members closed => closed && membersIntact members
  | .broken => false
  | _ => true

def itemsIntact : List Node → Bool
  | [] => true
  | n :: ns => if n.intact then itemsIntact ns else false

def membersIntact : List (Option String × Node) → Bool
  | [] => true
  | (_, n) :: ns => if n.intact then membersIntact ns else false
end

end EventPipeline.Json
