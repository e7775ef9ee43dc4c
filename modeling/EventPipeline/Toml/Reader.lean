import EventPipeline.Toml.Lexical

/-!
Reading TOML documents. A document is a sequence of lines: keys with their values, and headers that
say which table the keys after them belong to.
-/

namespace EventPipeline.Toml

mutual
/-- Takes a value that may nest `room` levels. -/
def takeValue? : (steps room : Nat) → List Char → Option (Value × List Char)
  | 0, _, _ => none
  | steps + 1, room, cs =>
    match cs with
    | '[' :: cs => if room = 0 then none else takeItems? steps (room - 1) [] cs
    | '\x7b' :: cs =>
      if room = 0 then none
      else
        match skipBlanks cs with
        | '\x7d' :: cs => some (.table [], cs)
        | cs => takeMembers? steps (room - 1) [] cs
    | 't' :: 'r' :: 'u' :: 'e' :: cs => some (.bool true, cs)
    | 'f' :: 'a' :: 'l' :: 's' :: 'e' :: cs => some (.bool false, cs)
    | '"' :: _ | '\'' :: _ => (takeString? cs).map fun (s, cs) => (.text s, cs)
    | cs => takeScalar? cs

/-- Takes the rest of a list; a comma may follow its last element. -/
def takeItems? : (steps room : Nat) → (done : List Value) → List Char → Option (Value × List Char)
  | 0, _, _, _ => none
  | steps + 1, room, done, cs =>
    match skipLayout false cs with
    | ']' :: cs => some (.array done.reverse, cs)
    | cs =>
      match takeValue? steps room cs with
      | none => none
      | some (v, cs) =>
        match skipLayout false cs with
        | ',' :: cs => takeItems? steps room (v :: done) cs
        | ']' :: cs => some (.array (v :: done).reverse, cs)
        | _ => none

/-- Takes the rest of a table that is written as a value. -/
def takeMembers? : (steps room : Nat) → (done : Members) → List Char → Option (Value × List Char)
  | 0, _, _, _ => none
  | steps + 1, room, done, cs =>
    match takeKey? nestingLimit [] cs with
    | some ((path, key), '=' :: cs) =>
      match takeValue? steps room (skipBlanks cs) with
      | none => none
      | some (v, cs) =>
        match done.addDotted key v path with
        | none => none
        | some done =>
          match skipBlanks cs with
          | ',' :: cs => takeMembers? steps room done cs
          | '\x7d' :: cs => some (.table (finishMembers done), cs)
          | _ => none
    | _ => none
end

/-- A document that has been read so far: its members, and the table that is open. -/
structure State where
  members : Members
  path : List String

namespace State

/-- Adds a value to the open table. -/
def add (s : State) (path : List String) (key : String) (v : Value) : Option State :=
  (s.members.alter (Members.addDotted key v path) s.path).map fun members => { s with members }

/-- Opens a table, or the next of several tables with one header. -/
def openAt (s : State) (repeated : Bool) (path : List String) (key : String) : Option State :=
  let change := if repeated then Members.openNext key else Members.openTable key
  (s.members.alter change path).map fun members => { members, path := path ++ [key] }

end State

/-- Takes a header after its opening brackets. -/
def takeHeader? (repeated : Bool) (s : State) (cs : List Char) : Option (State × List Char) := do
  let ((path, key), cs) ← takeKey? nestingLimit [] cs
  let cs ← takeMark? ']' cs
  let cs ← if repeated then takeMark? ']' cs else some cs
  some (← s.openAt repeated path key, cs)

/-- Takes a key and its value. -/
def takeMember? (s : State) (cs : List Char) : Option (State × List Char) := do
  let ((path, key), cs) ← takeKey? nestingLimit [] cs
  let cs ← takeMark? '=' cs
  let cs := skipBlanks cs
  let (v, cs) ← takeValue? (cs.length + 1) nestingLimit cs
  some (← s.add path key v, cs)

/-- Takes one line, and what is read in it. -/
def takeLine? (s : State) (cs : List Char) : Option (State × List Char) := do
  let (s, cs) ← match skipBlanks cs with
    | '[' :: '[' :: cs => takeHeader? true s cs
    | '[' :: cs => takeHeader? false s cs
    | [] => some (s, [])
    | c :: cs =>
      if c = '#' || c = '\n' || c = '\r' then some (s, c :: cs) else takeMember? s (c :: cs)
  some (s, ← takeLineEnd? cs)

/-- Takes lines until the text ends. -/
def takeLines? : (steps : Nat) → State → List Char → Option State
  | 0, _, _ => none
  | _ + 1, s, [] => some s
  | steps + 1, s, cs =>
    match takeLine? s cs with
    | none => none
    | some (s, cs) => takeLines? steps s cs

/-- A byte order mark at the start of a document says nothing. -/
def skipMark : List Char → List Char
  | '\uFEFF' :: cs => cs
  | cs => cs

/-- The table that a document holds. -/
def read? (s : String) : Option Value :=
  let cs := skipMark s.toList
  (takeLines? (cs.length + 1) ⟨[], []⟩ cs).map fun state => .table (finishMembers state.members)

end EventPipeline.Toml
