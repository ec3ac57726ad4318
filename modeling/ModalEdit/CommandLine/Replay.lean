import ModalEdit.CommandLine.Arguments
import ModalEdit.CommandLine.FileTree
import ModalEdit.Config.File
import ModalEdit.Engine
import ModalEdit.Toml.Printer

/-!
# Replaying keys over a file

`replay` feeds the keys of the command line to an engine whose document is the text of a file. It
reports what is printed and what goes back to the file. Text is handed to the engine with plain line
feeds in the place of carriage returns and line feeds.
-/

namespace ModalEdit.CommandLine

/-- What a run of the program comes to. -/
structure Report where
  /-- The exit status. -/
  status : Nat := 0
  /-- What is printed. -/
  output : Text := []
  /-- What is printed on the error stream. -/
  messages : Text := []
  /-- What goes back to the file. -/
  saved : Option Text := none
deriving DecidableEq, Repr

/-- The name of the configuration file in the working directory. -/
def localConfig : String := "oxmodal.toml"

/-- The configuration file of a run: the one that is asked for, else the one in the working
directory if it exists, else the one in the user's directory for configurations. -/
def configPath (a : Arguments) (isLocal : Bool) (home : Option String) : String :=
  match a.config, home with
  | some p, _ => p
  | none, some dir => if isLocal then localConfig else dir ++ "/oxmodal/" ++ localConfig
  | none, none => localConfig

/-- Put a line feed in the place of each carriage return that a line feed follows and of that line
feed. -/
def unifyBreaks : List Char → Text
  | '\r' :: '\n' :: rest => '\n' :: unifyBreaks rest
  | c :: rest => c :: unifyBreaks rest
  | [] => []

/-- The editor on the content of a file. -/
def openEditor (a : Arguments) (content : List Char) : Editor :=
  { Editor.ofDocument (.ofText (unifyBreaks content)) a.cursors with language := a.language }

/-- The engine of a configuration, and the messages about its bindings. -/
def openEngine (c : Config) : Engine × Text :=
  let (keymap, faults) := c.keymap
  let line (e : BindingError) : Text := s!"oxmodal: ignoring binding: {e.message}\n".toList
  ({ keymap, settings := c.settings }, faults.flatMap line)

/-- The message about a failure and its cause. Further lines of the cause are indented as well. -/
def failureMessage (what cause : String) : Text :=
  let indented := cause.toList.flatMap fun c => if c = '\n' then "\n    ".toList else [c]
  s!"Error: {what}\n\nCaused by:\n    ".toList ++ indented ++ ['\n']

/-- The line about a command that the keys have called. -/
def commandLine (c : String × Option Toml.Value) : Text :=
  match c.2 with
  | none => s!"command: {c.1}\n".toList
  | some v => s!"command: {c.1} ".toList ++ v.render ++ ['\n']

/-- The text with a line feed at its end. -/
def withFinalBreak (t : Text) : Text := if t.getLast? = some '\n' then t else t ++ ['\n']

/-- Replay the keys over a file. The configuration is the text of its file, if it can be read. -/
def replay (a : Arguments) (config : Option (List Char)) (file : Except ReadError (List Char)) :
    Report :=
  let (engine, messages) := openEngine (.read config)
  match file with
  | .error e =>
    { status := 1, messages := messages ++ failureMessage s!"reading {a.path}" e.message }
  | .ok content =>
    match engine.feed (openEditor a content) a.keys.toList with
    | .error e =>
      let what := s!"parsing key script `{a.keys}`"
      { status := 1, messages := messages ++ failureMessage what e.message }
    | .ok (_, _, ed) =>
      let messages := messages ++ ed.executed.flatMap commandLine
      if a.write then { messages, saved := some ed.text }
      else { messages, output := withFinalBreak ed.text }

/-- The report on arguments that are refused. -/
def refuse (e : ArgumentError) : Report := { status := 2, messages := (e.message ++ "\n").toList }

/-- Run the program on the files of a working directory. The user's configurations are in the
directory `home` of it. -/
def runOn (t : FileTree) (home : Option String) (args : List String) : Report × FileTree :=
  match Arguments.read args with
  | .error e => (refuse e, t)
  | .ok a =>
    let text (path : String) : Except ReadError (List Char) := do decode (← t.read path)
    let config := text (configPath a (t.contains localConfig) home)
    let report := replay a config.toOption (text a.path)
    match report.saved with
    | some s => (report, t.write a.path (String.ofList s).toUTF8)
    | none => (report, t)

end ModalEdit.CommandLine
