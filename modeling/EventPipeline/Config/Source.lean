import EventPipeline.Config.Files
import EventPipeline.Config.Toml

/-!
Where a configuration comes from. The first source that is there is used: a file named on the
command line, a file named in the environment, transformations in the environment, the file in the
user's configuration directory; without any of these there are no transformations.
-/

namespace EventPipeline

inductive Source where
  | commandLine (path : String)
  | namedFile (path : String)
  | environment
  | directory (path : String)
  | default
deriving DecidableEq, Repr

/-- The settings of the environment. -/
abbrev Environment := String → Option String

namespace Config

/-- The setting that names a configuration file. -/
def fileSetting : String := "CE_TRANSFORM_CONFIG"

/-- The setting of the number of workers. -/
def workersSetting : String := "CE_TRANSFORM_WORKERS"

/-- The name of the configuration file below the user's configuration directory. -/
def fileName : String := "dev.hxyulin.ce-transform/config.toml"

/-- The configuration in the bytes of a file. -/
def ofFile (path : String) (bytes : ByteArray) (processors : Option Nat) : Except Error Config :=
  match String.fromUTF8? bytes with
  | none => .error (.config (.unreadableFile path .notUtf8))
  | some s =>
    match ofToml s processors with
    | .error problem => .error (.config (.badFile path problem))
    | .ok c => c.validated

variable {m : Type → Type} [Monad m]

/-- Reads a configuration file. -/
def load (fs : FileAccess m) (path : String) (processors : Option Nat := none) :
    m (Except Error Config) := do
  match ← fs.read path with
  | .error fault => return .error (.config (.unreadableFile path fault))
  | .ok bytes => return ofFile path bytes processors

/-- Writes a configuration file, and makes the directory that it is in. -/
def save (fs : FileAccess m) (c : Config) (path : String) : m (Except Error Unit) := do
  match ← fs.makeDirectory (parentPath path) with
  | .error fault => return .error (.config (.noDirectory fault))
  | .ok () =>
    match c.toml with
    | .error e => return .error e
    | .ok text =>
      match ← fs.write path text.toUTF8 with
      | .error fault => return .error (.config (.unwritableFile path fault))
      | .ok () => return .ok ()

/-- The number of workers in a setting. -/
def readWorkers (text : String) : Except Error Nat :=
  (Text.readCount (Text.trim text.toList)).mapError fun fault =>
    .config (.badCount workersSetting text fault)

/-- The configuration in the environment, if it has transformations. -/
def ofEnvironment (env : Environment) (processors : Option Nat := none) :
    Except Error (Option Config) :=
  match env Transformations.contextSetting, env Transformations.dataSetting with
  | none, none => .ok none
  | context, data => do
    let transformations ← Transformations.ofJson (context.getD "") (data.getD "")
    let workers ← match env workersSetting with
      | some text => readWorkers text
      | none => .ok (defaultWorkers processors)
    some <$> validated ⟨workers, defaultQueueSize, transformations⟩

/-- Notes where a configuration came from. -/
def fromSource (source : Source) (c : Except Error Config) : Except Error (Config × Source) :=
  c.map fun c => (c, source)

/-- The configuration of the first source that is there; `home` is the user's configuration
directory. -/
def resolve (fs : FileAccess m) (env : Environment) (home argument : Option String)
    (processors : Option Nat := none) : m (Except Error (Config × Source)) := do
  match argument, env fileSetting with
  | some path, _ => return fromSource (.commandLine path) (← load fs path processors)
  | none, some path => return fromSource (.namedFile path) (← load fs path processors)
  | none, none =>
    match ofEnvironment env processors with
    | .error e => return .error e
    | .ok (some c) => return .ok (c, .environment)
    | .ok none =>
      match home with
      | none => return .ok (standard processors, .default)
      | some home =>
        let path := home ++ "/" ++ fileName
        if ← fs.isThere path then
          return fromSource (.directory path) (← load fs path processors)
        else return .ok (standard processors, .default)

end Config

/-- A source as messages show it. -/
def Source.display : Source → String
  | .commandLine path => "command line (" ++ path ++ ")"
  | .namedFile path => Config.fileSetting ++ " (" ++ path ++ ")"
  | .environment => Transformations.contextSetting ++ "/" ++ Transformations.dataSetting
  | .directory path => "config dir (" ++ path ++ ")"
  | .default => "defaults"

end EventPipeline
