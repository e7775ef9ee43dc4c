import EventPipeline.Text.Quoted

/-!
Why a text is not what a reader of typed data asked for. A reader reports the first problem in the
order of the text. Whatever is wrong with the text itself, rather than with what it says, is one
cause: `malformed`.
-/

namespace EventPipeline

/-- What stands in the text at the place of a problem. -/
inductive Problem.Found where
  | null
  | boolean (b : Bool)
  | integer (n : Int)
  /-- A double, as the format of the text writes it. -/
  | double (written : String)
  | text (s : String)
  | sequence
  | map
deriving DecidableEq, Repr

/-- What was asked for in its place. -/
inductive Problem.Expected where
  | text
  | sequence
  | map
  | count
  | record (name : String)
  | time
deriving DecidableEq, Repr

inductive Problem where
  | malformed
  | missingField (name : String)
  | duplicateField (name : String)
  /-- A value of another kind. -/
  | wrongKind (found : Problem.Found) (expected : Problem.Expected)
  /-- A value of the right kind that is out of bounds. -/
  | outOfBounds (found : Problem.Found) (expected : Problem.Expected)
  /-- A record written as a list of its fields that ends too early. -/
  | tooShort (length : Nat) (record : String) (fields : Nat)
  | unknownOperation (name : String)
deriving DecidableEq, Repr

def Problem.Found.message : Found → String
  | .null => "null"
  | .boolean b => "boolean \x60" ++ (if b then "true" else "false") ++ "\x60"
  | .integer n => "integer \x60" ++ toString n ++ "\x60"
  | .double written => "floating point \x60" ++ written ++ "\x60"
  | .text s => "string " ++ Text.quoted s
  | .sequence => "sequence"
  | .map => "map"

def Problem.Expected.message : Expected → String
  | .text => "a string"
  | .sequence => "a sequence"
  | .map => "a map"
  | .count => "usize"
  | .record name => "struct " ++ name
  | .time => "an RFC 3339 formatted date and time string"

def Problem.message : Problem → String
  | .malformed => "<malformed>"
  | .missingField name => "missing field \x60" ++ name ++ "\x60"
  | .duplicateField name => "duplicate field \x60" ++ name ++ "\x60"
  | .wrongKind found expected =>
    "invalid type: " ++ found.message ++ ", expected " ++ expected.message
  | .outOfBounds found expected =>
    "invalid value: " ++ found.message ++ ", expected " ++ expected.message
  | .tooShort length record fields =>
    "invalid length " ++ toString length ++ ", expected struct " ++ record ++ " with " ++
      toString fields ++ " elements"
  | .unknownOperation name => "Unknown operation: " ++ Text.quoted name

end EventPipeline
