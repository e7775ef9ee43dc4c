import EventPipeline.Error

/-!
The files that configurations are kept in. A program reaches them through four actions; `Files` is
a small store of files in which all of them are functions. A path leads to a file name by name: each
name is looked up in the directory that the names before it lead to.
-/

namespace EventPipeline

/-- The actions on files, in a monad `m`. -/
structure FileAccess (m : Type → Type) where
  read : String → m (Except FileFault ByteArray)
  isThere : String → m Bool
  /-- Makes a directory, and those that it is in, unless it is there. -/
  makeDirectory : String → m (Except FileFault Unit)
  write : String → ByteArray → m (Except FileFault Unit)

/-- The names on the way to a file; `.` stays at a directory, and `..` leads out of it. -/
def pathNames (path : String) : List String := (path.splitOn "/").filter (· != "")

/-- The directory that a file is in; the empty path where nothing is in the way. -/
def parentPath (path : String) : String :=
  let names := (pathNames path).filter (· != ".")
  (if path.startsWith "/" then "/" else "") ++ "/".intercalate names.dropLast

/-- The most bytes that a name may have. -/
def longestName : Nat := 255

/-- The most bytes that a path may have. -/
def longestPath : Nat := 4095

/-- Why a path cannot lead anywhere. -/
def pathFault? (path : String) : Option FileFault :=
  if path.contains '\x00' then some .strayNul
  else if path = "" then some .notFound
  else if longestPath < path.utf8ByteSize then some .nameTooLong
  else none

/-- The names on the way to a file, if the path can lead anywhere. -/
def usableNames (path : String) : Except FileFault (List String) :=
  match pathFault? path with
  | some fault => .error fault
  | none => .ok (pathNames path)

/-- A path that ends in a slash can only name a directory. -/
def namesDirectory (path : String) : Bool := path.endsWith "/"

/-- A place in a store: the names that lead to it, without dots. -/
abbrev Place := List String

/-- The files and directories of a store, by place. -/
structure Files where
  files : List (Place × ByteArray) := []
  directories : List Place := []

namespace Files

def file? (s : Files) (place : Place) : Option ByteArray :=
  (s.files.find? fun f => f.1 == place).map Prod.snd

def isDirectory (s : Files) (place : Place) : Bool := place.isEmpty || s.directories.contains place

/-- Whether a file or a directory stands in a place. -/
def isTaken (s : Files) (place : Place) : Bool := (s.file? place).isSome || s.isDirectory place

/-- The place of a name in a directory. -/
def child (here : Place) (name : String) : Except FileFault Place :=
  if longestName < name.utf8ByteSize then .error .nameTooLong else .ok (here ++ [name])

/-- Follows one name. -/
def step (s : Files) (here : Place) (name : String) : Except FileFault Place := do
  if !s.isDirectory here then throw .notADirectory
  if name = "." then return here
  if name = ".." then return here.dropLast
  let place ← child here name
  if s.isTaken place then return place else throw .notFound

/-- Follows names to the place that they lead to. -/
def follow (s : Files) (names : List String) : Except FileFault Place := names.foldlM s.step []

/-- The place that a path leads to. -/
def place (s : Files) (path : String) : Except FileFault Place := do
  let place ← s.follow (← usableNames path)
  if namesDirectory path && !s.isDirectory place then throw .notADirectory
  return place

def read (s : Files) (path : String) : Except FileFault ByteArray := do
  match s.file? (← s.place path) with
  | some bytes => return bytes
  | none => throw .isDirectory

def isThere (s : Files) (path : String) : Bool := (s.place path).isOk

/-- The outcome of a change: what comes of it, or its fault and the store as it was. -/
def outcome (s : Files) : Except FileFault Files → Except FileFault Unit × Files
  | .ok changed => (.ok (), changed)
  | .error fault => (.error fault, s)

/-- The directory that the last name is looked up in. -/
def enclosing (s : Files) (names : List String) : Except FileFault Place := do
  let here ← s.follow names.dropLast
  if s.isDirectory here then return here else throw .notADirectory

/-- The place for something new, under the last name. Dots, or no name at all, lead to a directory
that is there: the fault `taken`. -/
def newPlace (here : Place) (names : List String) (taken : FileFault) : Except FileFault Place :=
  match names.getLast? with
  | none | some "." | some ".." => .error taken
  | some name => child here name

/-- Makes one directory. -/
def addDirectory (s : Files) (names : List String) : Except FileFault Files := do
  let place ← newPlace (← s.enclosing names) names .alreadyThere
  if s.isTaken place then throw .alreadyThere
  return { s with directories := place :: s.directories }

/-- Makes one directory, unless the names lead to one. -/
def ensureDirectory (s : Files) (names : List String) : Except FileFault Files :=
  match s.addDirectory names, s.follow names with
  | .ok changed, _ => .ok changed
  | .error fault, .ok place => if s.isDirectory place then .ok s else .error fault
  | .error fault, .error _ => .error fault

/-- Makes a directory, and those that it is in; its names stand last one first. -/
def ensureDirectories (s : Files) : (names : List String) → Except FileFault Unit × Files
  | [] => (.ok (), s)
  | name :: before =>
    match s.ensureDirectory (name :: before).reverse with
    | .error .notFound =>
      match s.ensureDirectories before with
      | (.ok (), s) => s.outcome (s.ensureDirectory (name :: before).reverse)
      | failed => failed
    | made => s.outcome made

def makeDirectory (s : Files) (path : String) : Except FileFault Unit × Files :=
  if path = "" then (.ok (), s)
  else
    match usableNames path with
    | .ok names => s.ensureDirectories names.reverse
    | .error fault => (.error fault, s)

/-- Puts a file in the place that a path leads to. -/
def put (s : Files) (path : String) (bytes : ByteArray) : Except FileFault Files := do
  let names ← usableNames path
  let here ← s.enclosing names
  if namesDirectory path then throw .isDirectory
  let place ← newPlace here names .isDirectory
  if s.isDirectory place then throw .isDirectory
  return { s with files := (place, bytes) :: s.files.filter fun f => f.1 != place }

def write (s : Files) (path : String) (bytes : ByteArray) : Except FileFault Unit × Files :=
  s.outcome (s.put path bytes)

/-- The actions on a store of files. -/
def access : FileAccess (StateM Files) where
  read path := return (← get).read path
  isThere path := return (← get).isThere path
  makeDirectory path := modifyGet (makeDirectory · path)
  write path bytes := modifyGet (write · path bytes)

end Files

end EventPipeline
