import EventPipeline.Operation
import EventPipeline.Path.Text
import EventPipeline.Problem

/-!
Errors, as causes; `message` words them. Main statements: `collect` keeps every error and its
order (`leaves_collect`), and has none exactly for the empty list (`collect_eq_none_iff`).
-/

namespace EventPipeline

/-- Why a file, or the input, cannot be used. -/
inductive FileFault where
  | notFound
  | isDirectory
  | notADirectory
  | alreadyThere
  | nameTooLong
  /-- A path with a NUL in it, which no file can have. -/
  | strayNul
  | notUtf8
  | other (text : String)
deriving DecidableEq, Repr

def FileFault.message : FileFault → String
  | .notFound => "No such file or directory (os error 2)"
  | .isDirectory => "Is a directory (os error 21)"
  | .notADirectory => "Not a directory (os error 20)"
  | .alreadyThere => "File exists (os error 17)"
  | .nameTooLong => "File name too long (os error 36)"
  | .strayNul => "file name contained an unexpected NUL byte"
  | .notUtf8 => "stream did not contain valid UTF-8"
  | .other text => text

/-- What is wrong with a configuration. -/
inductive ConfigFault where
  | indexTooLarge (index : Nat) (path : Path)
  | unnamedVariable
  | noWorkers
  | noQueue
  /-- A count in a setting of the environment. -/
  | badCount (setting text : String) (fault : Text.CountFault)
  /-- A list of transformations in a setting of the environment. -/
  | badList (setting : String) (problem : Problem)
  | unreadableFile (path : String) (fault : FileFault)
  | badFile (path : String) (problem : Problem)
  | noDirectory (fault : FileFault)
  /-- A count too large for the file format. -/
  | unwritableCount
  | unwritableFile (path : String) (fault : FileFault)
  | other (text : String)
deriving DecidableEq, Repr

def ConfigFault.message : ConfigFault → String
  | .indexTooLarge index path =>
    "array index " ++ toString index ++ " in path " ++ Text.quoted path.display ++
      " exceeds the maximum of " ++ toString Path.largestIndex
  | .unnamedVariable => "store requires a variable name"
  | .noWorkers => "workers must be at least 1"
  | .noQueue => "queue_size must be at least 1"
  | .badCount setting text fault =>
    "Invalid " ++ setting ++ " " ++ Text.quoted text ++ ": " ++ fault.message
  | .badList setting problem => "Failed to parse " ++ setting ++ ": " ++ problem.message
  | .unreadableFile path fault =>
    "Failed to read config file " ++ Text.quoted path ++ ": " ++ fault.message
  | .badFile path problem =>
    "Failed to parse config file " ++ Text.quoted path ++ ": " ++ problem.message
  | .noDirectory fault => "Failed to create config directory: " ++ fault.message
  | .unwritableCount => "Failed to serialize config: out-of-range value for u64 type"
  | .unwritableFile path fault =>
    "Failed to write config file " ++ Text.quoted path ++ ": " ++ fault.message
  | .other text => text

/-- Why an operation could not do its work on a tree. -/
inductive OperationFault where
  /-- A node of the named kind where a text was needed. -/
  | notAText (kind : String)
  | badJson (problem : Problem)
  | other (text : String)
deriving DecidableEq, Repr

def OperationFault.message : OperationFault → String
  | .notAText kind => "expected a string, found " ++ kind
  | .badJson problem => "invalid JSON: " ++ problem.message
  | .other text => text

/-- Why something is no event. -/
inductive EventFault where
  | badContext (problem : Problem)
  | unsupportedVersion (version : String)
  | emptyAttribute (name : String)
  | badExtensionName (name : String)
  | nestedExtension (name : String)
  | other (text : String)
deriving DecidableEq, Repr

def EventFault.message : EventFault → String
  | .badContext problem => "cannot decode transformed context: " ++ problem.message
  | .unsupportedVersion version => "unsupported specversion " ++ Text.quoted version
  | .emptyAttribute name => "attribute " ++ Text.quoted name ++ " must not be empty"
  | .badExtensionName name => "invalid extension name " ++ Text.quoted name
  | .nestedExtension name => "extension " ++ Text.quoted name ++ " must be a scalar"
  | .other text => text

inductive Error where
  | unknownOperation (name : String)
  | malformedShiftKey (key : String)
  | unsupportedFormat (format : String)
  | config (fault : ConfigFault)
  | decode (problem : Problem)
  | operation (operation : Operation) (path : String) (fault : OperationFault)
  /-- Several errors, in the order in which they arose. -/
  | aggregate (errors : List Error)
  | unsupportedContentType (contentType : String)
  | invalidEvent (fault : EventFault)
  | io (fault : FileFault)
  /-- An error with a note on where it arose. -/
  | noted (note : String) (source : Error)
deriving Repr, Inhabited

namespace Error

mutual
def message : Error → String
  | .unknownOperation name => "Unknown operation: " ++ Text.quoted name
  | .malformedShiftKey key =>
    "Malformed shift key " ++ Text.quoted key ++ ": expected \"oldPath:newPath\""
  | .unsupportedFormat format => "Unsupported parse format " ++ Text.quoted format
  | .config fault => "Configuration error: " ++ fault.message
  | .decode problem => "Decode error: " ++ problem.message
  | .operation op path fault =>
    op.name ++ " " ++ Text.quoted path ++ ": " ++ fault.message
  | .aggregate errors => "; ".intercalate (messages errors)
  | .unsupportedContentType contentType =>
    "Content type " ++ Text.quoted contentType ++ " is not supported"
  | .invalidEvent fault => "Invalid event: " ++ fault.message
  | .io fault => "IO error: " ++ fault.message
  | .noted note source => note ++ ": " ++ source.message

def messages : List Error → List String
  | [] => []
  | e :: es => e.message :: messages es
end

/-- Whether an error is the configuration's fault. -/
def isConfiguration : Error → Bool
  | .unknownOperation _ | .malformedShiftKey _ | .unsupportedFormat _ | .config _ => true
  | .noted _ source => source.isConfiguration
  | _ => false

/-- Several errors as one: none, the only one, or all of them. -/
def collect : List Error → Option Error
  | [] => none
  | [e] => some e
  | es => some (.aggregate es)

mutual
/-- The errors that an error is made of. -/
def leaves : Error → List Error
  | .aggregate errors => leavesOf errors
  | e => [e]

/-- The errors that a list of errors is made of. -/
def leavesOf : List Error → List Error
  | [] => []
  | e :: es => e.leaves ++ leavesOf es
end

theorem collect_eq_none_iff {es : List Error} : collect es = none ↔ es = [] := by
  match es with
  | [] => simp [collect]
  | [e] => simp [collect]
  | e :: f :: es => simp [collect]

/-- No error is lost by collecting. -/
theorem leaves_collect (es : List Error) :
    ((collect es).map leaves).getD [] = leavesOf es := by
  match es with
  | [] => rfl
  | [e] => simp [collect, leavesOf]
  | e :: f :: es => rfl

theorem leavesOf_append (es fs : List Error) :
    leavesOf (es ++ fs) = leavesOf es ++ leavesOf fs := by
  induction es with
  | nil => rfl
  | cons e es ih => rw [List.cons_append, leavesOf, ih, leavesOf, List.append_assoc]

theorem leavesOf_collect (es : List Error) : leavesOf (collect es).toList = leavesOf es := by
  match es with
  | [] => rfl
  | [e] => rfl
  | e :: f :: es => exact List.append_nil _

theorem leavesOf_eq_self {es : List Error} (h : ∀ e ∈ es, e.leaves = [e]) : leavesOf es = es := by
  induction es with
  | nil => rfl
  | cons e es ih =>
    rw [leavesOf, h e List.mem_cons_self, ih fun f hf => h f (List.mem_cons_of_mem _ hf)]
    rfl

end Error

/-- Fails for a path with an index that may not be written to. -/
def Path.ensureWritable (p : Path) : Except Error Unit :=
  match p.excess? with
  | some index => .error (.config (.indexTooLarge index p))
  | none => .ok ()

end EventPipeline
