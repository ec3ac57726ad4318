import ModalEdit.Editor
import ModalEdit.Placement
import ModalEdit.Session

/-!
# What commands act on

A command works on a `State`, which is the editor together with the session. It reads the `Settings`
but never changes them. A `Step` is a piece of a command: it changes the state as it goes, and what
it has changed stays changed when it fails.

An action answers the keys it is offered with a `Reply`.
-/

namespace ModalEdit

/-- What the user has configured. -/
structure Settings where
  /-- Where a resting cursor may be. -/
  placement : Placement := .gap
  /-- The token that begins a line comment, by language. -/
  comments : List (String × String) := []
deriving DecidableEq, Repr

/-- The comment token of a language. -/
def Settings.comment? (s : Settings) (language : String) : Option Text :=
  (s.comments.lookup language).map String.toList

/-- The editor and the session. -/
structure State where
  /-- The document and what else the editor owns. -/
  editor : Editor
  /-- What is remembered from key to key. -/
  session : Session := {}

/-- A piece of a command. It changes the state as it goes and may fail on the way; what it has
changed by then stays changed. -/
abbrev Step := EStateM EditorError State

namespace State

variable (s : State)

/-- The mode of the session. -/
def mode : Mode := s.session.mode

/-- The selections of the editor. -/
def selections : List Selection := s.editor.selections

/-- Change the mode. -/
def setMode (m : Mode) : State := { s with session := { s.session with mode := m } }

/-- Change the selections and bring the first one into view. -/
def select (sels : List Selection) : State := { s with editor := s.editor.select sels }

/-- Change the selections to cursors and bring the first one into view. -/
def setCursors (ps : List Position) : State := { s with editor := s.editor.setCursors ps }

/-- Remember a character search, if there was one. -/
def remember (f : Option Find) : State :=
  { s with session := { s.session with lastFind := f.or s.session.lastFind } }

/-- Store register entries, if there are any, and put their text on the clipboard, if there is
one. -/
def writeRegisters (entries : List RegisterEntry) : State :=
  if entries.isEmpty then s
  else
    let registers := Registers.store entries
    let text := registers.clipboardText
    match s.editor.clipboard with
    | none => { s with session := { s.session with registers } }
    | some _ =>
      { s with
        editor := { s.editor with clipboard := some text }
        session := { s.session with registers := registers.noteWritten text } }

/-- Adopt text that someone else has put on the clipboard. -/
def syncRegisters : State :=
  match s.editor.clipboard with
  | none => s
  | some text =>
    { s with session := { s.session with registers := s.session.registers.sync text } }

/-- The cursors, moved into the document, each position once, the primary one first. -/
def cursorsIn (d : Document) : List Position :=
  (s.selections.map fun sel => d.clamp sel.active).eraseDups

/-- The lines of the cursors, each once, the primary one first. -/
def cursorLines (d : Document) : List Nat := ((s.cursorsIn d).map (·.line)).eraseDups

end State

namespace Step

/-- Make a batch of edits in the document `d`, which is the one that is open. -/
def commit (d : Document) (edits : List Edit) : Step (Document × Plan) := fun s =>
  match s.editor.commit d edits with
  | .ok (editor, result) => .ok result { s with editor }
  | .error e => .error e s

/-- Call a command of the editor. -/
def execute (command : String) (args : Option Toml.Value) : Step Unit := fun s =>
  match s.editor.execute command args with
  | .ok editor => .ok () { s with editor }
  | .error e => .error e s

/-- Go on with the document that is open. -/
def withDocument {α : Type} (go : Document → Step α) : Step α := do
  match (← get).editor.document with
  | some d => go d
  | none => throw .noActiveEditor

end Step

/-- What an action says to the keys typed so far. -/
inductive Reply where
  /-- The action ran. -/
  | executed
  /-- The keys are the beginning of what the action asks for. -/
  | needsMore
  /-- The keys are nothing to the action. -/
  | noMatch
deriving DecidableEq, Repr

/-- What becomes of trying one action by itself on the keys typed so far. -/
inductive Attempt where
  /-- The action ran. -/
  | executed (after : State)
  /-- The keys are the beginning of what the action asks for. -/
  | needsMore
  /-- The keys are nothing to the action. -/
  | noMatch
  /-- The action could not do its work. -/
  | failed (e : EditorError) (after : State)

/-- Try a step by itself. -/
def Step.attempt (m : Step Reply) (s : State) : Attempt :=
  match m s with
  | .ok .executed after => .executed after
  | .ok .needsMore _ => .needsMore
  | .ok .noMatch _ => .noMatch
  | .error e after => .failed e after

end ModalEdit
