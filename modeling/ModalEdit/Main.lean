import ModalEdit.CommandLine.Replay

/-!
# The program

Reads the files that a call names, replays the keys and prints the report.
-/

namespace ModalEdit.CommandLine

/-- An error code stands for the error with the given number; its sign may be turned. -/
def hasNumber (code number : UInt32) : Bool := code == number || code == 0 - number

/-- Read the text of a file. -/
def readText (path : String) : IO (Except ReadError (List Char)) := do
  try
    return decode (← IO.FS.readBinFile path)
  catch e =>
    return .error <| match e with
      | .noFileOrDirectory .. => .notFound
      | .inappropriateType _ code _ => if hasNumber code 20 then .notADirectory else .isADirectory
      | .invalidArgument _ code _ => if hasNumber code 36 then .tooLong else .other e.toString
      | e => .other e.toString

/-- Something has this path. -/
def isThere (path : String) : IO Bool := do
  try
    let _ ← IO.FS.Handle.mk path .read
    return true
  catch _ => return false

/-- The user's directory for configurations. -/
def configHome : IO (Option String) := do
  match ← IO.getEnv "XDG_CONFIG_HOME" with
  | some dir => if dir.startsWith "/" then return some dir
  | none => pure ()
  return (← IO.getEnv "HOME").map (· ++ "/.config")

/-- Print a report and give the exit status. -/
def print (r : Report) : IO UInt32 := do
  (← IO.getStderr).putStr (String.ofList r.messages)
  (← IO.getStdout).putStr (String.ofList r.output)
  return r.status.toUInt32

/-- Replay the keys of a call over its file. -/
def call (a : Arguments) : IO UInt32 := do
  let config ← readText (configPath a (← isThere localConfig) (← configHome))
  let report := replay a config.toOption (← readText a.path)
  match report.saved with
  | none => print report
  | some s =>
    try
      IO.FS.writeFile a.path (String.ofList s)
      print report
    catch e =>
      let message := failureMessage s!"writing {a.path}" e.toString
      print { status := 1, messages := report.messages ++ message }

end ModalEdit.CommandLine

/-- The program. -/
def main (args : List String) : IO UInt32 :=
  match ModalEdit.CommandLine.Arguments.read args with
  | .ok a => ModalEdit.CommandLine.call a
  | .error e => ModalEdit.CommandLine.print (ModalEdit.CommandLine.refuse e)
