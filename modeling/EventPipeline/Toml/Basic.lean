import EventPipeline.Binary64.Basic

/-!
TOML documents as values, and the tables they are built from. While a document is read, each table
remembers how it came about, because that decides what may still be added to it: a header opens a
table once, a table that is only implied by longer headers may be opened later, and dotted keys add
to tables of dotted keys alone.
-/

namespace EventPipeline.Toml

inductive Value where
  | text (s : String)
  | integer (n : Int)
  | double (x : Binary64)
  | bool (b : Bool)
  /-- A date, a time, or both; nobody asks for which. -/
  | time
  | array (items : List Value)
  | table (members : List (String × Value))
deriving Inhabited

/-- How a table came about. -/
inductive Origin where
  | header
  | implied
  | dotted
deriving DecidableEq, Repr

/-- A member of a table under construction. -/
inductive Item where
  | value (v : Value)
  | table (origin : Origin) (members : List (String × Item))
  /-- Tables with one repeated header, the last one first. -/
  | tables (elements : List (List (String × Item)))

/-- The members of a table under construction, in the order in which they came. -/
abbrev Members := List (String × Item)

namespace Members

def find? (key : String) (ms : Members) : Option Item :=
  (List.find? (fun m => m.1 == key) ms).map Prod.snd

def replace (key : String) (item : Item) (ms : Members) : Members :=
  ms.map fun m => if m.1 == key then (key, item) else m

def without (key : String) (ms : Members) : Members := ms.filter fun m => m.1 != key

/-- Changes the table that a header leads to; tables that are missing on the way are implied. -/
def alter (change : Members → Option Members) : (path : List String) → Members → Option Members
  | [], ms => change ms
  | key :: path, ms =>
    match find? key ms with
    | none => (alter change path []).map fun inner => ms ++ [(key, .table .implied inner)]
    | some (.table origin inner) =>
      (alter change path inner).map fun inner => replace key (.table origin inner) ms
    | some (.tables (last :: before)) =>
      (alter change path last).map fun last => replace key (.tables (last :: before)) ms
    | some _ => none

/-- Opens a table by a header; a table that was only implied moves to the end. -/
def openTable (key : String) (ms : Members) : Option Members :=
  match find? key ms with
  | none => some (ms ++ [(key, .table .header [])])
  | some (.table .implied inner) => some (without key ms ++ [(key, .table .header inner)])
  | some _ => none

/-- Opens the next of the tables with one repeated header. -/
def openNext (key : String) (ms : Members) : Option Members :=
  match find? key ms with
  | none => some (ms ++ [(key, .tables [[]])])
  | some (.tables elements) => some (replace key (.tables ([] :: elements)) ms)
  | some _ => none

/-- Adds a value under a new key. -/
def add (key : String) (v : Value) (ms : Members) : Option Members :=
  match find? key ms with
  | none => some (ms ++ [(key, .value v)])
  | some _ => none

/-- Adds a value under a dotted key, whose last part is `key`. -/
def addDotted (key : String) (v : Value) : (path : List String) → Members → Option Members
  | [], ms => add key v ms
  | part :: path, ms =>
    match find? part ms with
    | none => (addDotted key v path []).map fun inner => ms ++ [(part, .table .dotted inner)]
    | some (.table origin inner) =>
      if origin = .dotted ∨ (origin = .implied ∧ path ≠ []) then
        (addDotted key v path inner).map fun inner => replace part (.table origin inner) ms
      else none
    | some (.tables (last :: before)) =>
      if path = [] then none
      else (addDotted key v path last).map fun last => replace part (.tables (last :: before)) ms
    | some _ => none

end Members

mutual
/-- The finished value of a member. -/
def Item.finish : Item → Value
  | .value v => v
  | .table _ ms => .table (finishMembers ms)
  | .tables elements => .array (finishTables [] elements)

def finishMembers : List (String × Item) → List (String × Value)
  | [] => []
  | (key, item) :: ms => (key, item.finish) :: finishMembers ms

/-- The finished tables, in front of those in `done`. -/
def finishTables (done : List Value) : List (List (String × Item)) → List Value
  | [] => done
  | ms :: elements => finishTables (.table (finishMembers ms) :: done) elements
end

end EventPipeline.Toml
