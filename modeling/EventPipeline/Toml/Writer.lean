import EventPipeline.Binary64.Text
import EventPipeline.Json.Chars
import EventPipeline.Toml.Lexical

/-!
Writing TOML documents. Values come first, each on a line of its own, then the tables, each under
its header after an empty line. A table that holds nothing but tables needs no header.
-/

namespace EventPipeline.Toml

/-- One character of a string between double quotes. -/
def escaped (c : Char) : List Char :=
  if c = '"' then ['\\', '"']
  else if c = '\\' then ['\\', '\\']
  else if c = '\x08' then ['\\', 'b']
  else if c = '\t' then ['\\', 't']
  else if c = '\n' then ['\\', 'n']
  else if c = '\x0c' then ['\\', 'f']
  else if c = '\r' then ['\\', 'r']
  else if isPlain c then [c]
  else ['\\', 'u', '0', '0', Json.hexChar (c.toNat / 16), Json.hexChar c.toNat]

def stringText (s : String) : String :=
  String.ofList ('"' :: s.toList.flatMap escaped ++ ['"'])

/-- A key, between quotes where it needs them. -/
def keyText (key : String) : String :=
  if key != "" && key.toList.all isKeyChar then key else stringText key

/-- Whether a value is written under headers of its own. -/
def Value.hasHeader : Value → Bool
  | .table _ => true
  | .array (.table _ :: _) => true
  | _ => false

mutual
/-- A value on one line. -/
def Value.inlineText : Value → String
  | .text s => stringText s
  | .integer n => toString n
  | .double x => x.pointedText
  | .bool b => if b then "true" else "false"
  | .time => "1970-01-01"
  | .array items => "[" ++ itemsText true items ++ "]"
  | .table members => "\x7b" ++ membersText true members ++ "\x7d"

def itemsText (first : Bool) : List Value → String
  | [] => ""
  | v :: vs => (if first then "" else ", ") ++ v.inlineText ++ itemsText false vs

def membersText (first : Bool) : List (String × Value) → String
  | [] => ""
  | (key, v) :: ms =>
    (if first then " " else ", ") ++ keyText key ++ " = " ++ v.inlineText ++
      (if ms.isEmpty then " " else "") ++ membersText false ms
end

/-- The lines of the members that are written as values. -/
def valueLines (members : List (String × Value)) : String :=
  String.join <| (members.filter fun m => !m.2.hasHeader).map fun (key, v) =>
    keyText key ++ " = " ++ v.inlineText ++ "\n"

/-- The header of a table, given the parts of its key. -/
def headerText (repeated : Bool) (path : List String) : String :=
  let key := ".".intercalate (path.map keyText)
  if repeated then "\n[[" ++ key ++ "]]\n" else "\n[" ++ key ++ "]\n"

mutual
/-- The sections of the members that are written under headers; `path` is the table they are in. -/
def sections (path : List String) : List (String × Value) → String
  | [] => ""
  | (key, v) :: ms => v.section (path ++ [key]) ++ sections path ms

/-- The sections of a value; empty if it is written on one line. -/
def Value.section (path : List String) : Value → String
  | .table members =>
    let lines := valueLines members
    (if lines = "" && !members.isEmpty then "" else headerText false path ++ lines) ++
      sections path members
  | .array items => repeated path items
  | _ => ""

/-- The sections of tables with one repeated header. -/
def repeated (path : List String) : List Value → String
  | .table members :: vs =>
    headerText true path ++ valueLines members ++ sections path members ++ repeated path vs
  | _ => ""
end

/-- The text of the document with the given members. -/
def documentText (members : List (String × Value)) : String :=
  valueLines members ++ sections [] members

end EventPipeline.Toml
