import EventPipeline.Config.Source

/-!
The program: it resolves its configuration, builds the adapter, and runs it over the input.
-/

namespace EventPipeline

/-- What the program writes, and why it failed, if it did. -/
structure Outcome where
  lines : List String := []
  failure : Option (String × Error) := none

namespace Outcome

def exitCode (o : Outcome) : UInt32 := if o.failure.isSome then 1 else 0

/-- An error, and the errors it has its cause in. -/
def causes : Error → List String
  | .noted note source => (Error.noted note source).message :: causes source
  | .io fault => [(Error.io fault).message, fault.message]
  | e => [e.message]

/-- Lines that number causes, if there is more than one. -/
def causeLines (causes : List String) : List String :=
  match causes with
  | [cause] => ["    " ++ cause]
  | causes => causes.zipIdx.map fun (cause, i) => "    " ++ toString i ++ ": " ++ cause

/-- The report on a failure. -/
def report (o : Outcome) : List String :=
  match o.failure with
  | none => []
  | some (note, e) => ["Error: " ++ note, "", "Caused by:"] ++ causeLines (causes e)

end Outcome

namespace Program

/-- Runs an adapter over the input. -/
def transformInput (a : Adapter) (input : ByteArray) : Outcome :=
  let run := a.run (fun _ => true) input
  { lines := run.sent.map Event.text
    failure := match run.stats with
      | .ok _ => none
      | .error e => some ("Failed to read input events", e) }

/-- The user's configuration directory. -/
def configHome (env : Environment) : Option String :=
  match (env "XDG_CONFIG_HOME").filter (·.startsWith "/") with
  | some path => some path
  | none => (env "HOME").map (· ++ "/.config")

/-- Runs the program, on so many processors as are known. -/
def run {m : Type → Type} [Monad m] (fs : FileAccess m) (env : Environment)
    (home argument : Option String) (input : ByteArray) (processors : Option Nat := none) :
    m Outcome := do
  match ← Config.resolve fs env home argument processors with
  | .error e => return { failure := some ("Failed to load configuration", e) }
  | .ok (config, _) =>
    match config.adapter with
    | .error e => return { failure := some ("Failed to build transformation pipelines", e) }
    | .ok a => return transformInput a input

end Program

end EventPipeline
