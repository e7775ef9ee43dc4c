import EventPipeline.Program

/-!
The command line: an optional argument names the configuration file, events come from the standard
input, and transformed events go to the standard output, one on each line.
-/

namespace EventPipeline.Main

/-- What the system says about an error, and its number for it. -/
def systemText : IO.Error → Option (UInt32 × String)
  | .noFileOrDirectory _ code text | .alreadyExists _ code text | .inappropriateType _ code text
  | .permissionDenied _ code text | .invalidArgument _ code text | .resourceExhausted _ code text =>
    some (code, text)
  | .otherError code text | .resourceBusy code text | .hardwareFault code text
  | .unsupportedOperation code text | .unsatisfiedConstraints code text =>
    some (code, text)
  | _ => none

/-- The fault that an error of the system is. -/
def faultOf : IO.Error → FileFault
  | .noFileOrDirectory .. => .notFound
  | .alreadyExists .. => .alreadyThere
  | e =>
    match systemText e with
    | some (code, text) => .other (text ++ " (os error " ++ toString code ++ ")")
    | none => .other (toString e)

/-- Does an action on a file, and catches its error. -/
def attempt {α : Type} (action : IO α) : IO (Except FileFault α) := do
  match ← action.toBaseIO with
  | .ok a => return .ok a
  | .error e => return .error (faultOf e)

/-- The actions on the files of the system. -/
def files : FileAccess IO where
  read path := attempt (IO.FS.readBinFile path)
  isThere path := Except.isOk <$> attempt (IO.FS.realPath path)
  makeDirectory path := attempt (if path = "" then pure () else IO.FS.createDirAll path)
  write path bytes := attempt (IO.FS.writeBinFile path bytes)

/-- The settings of the environment that the program asks for. -/
def settings : List String :=
  [Config.fileSetting, Config.workersSetting, Transformations.contextSetting,
    Transformations.dataSetting, "XDG_CONFIG_HOME", "HOME"]

/-- Reads a stream to its end. -/
partial def readAll (stream : IO.FS.Stream) (done : ByteArray) : IO ByteArray := do
  let bytes ← stream.read 65536
  if bytes.isEmpty then return done else readAll stream (done ++ bytes)

end EventPipeline.Main

open EventPipeline in
def main (arguments : List String) : IO UInt32 := do
  let values ← Main.settings.mapM fun name => return (name, ← IO.getEnv name)
  let env : Environment := fun name => (values.find? fun v => v.1 == name).bind Prod.snd
  let input ← Main.readAll (← IO.getStdin) .empty
  let outcome ← Program.run Main.files env (Program.configHome env) arguments.head? input
  let output ← IO.getStdout
  for line in outcome.lines do
    output.putStr (line ++ "\n")
  output.flush
  for line in outcome.report do
    IO.eprintln line
  return outcome.exitCode
