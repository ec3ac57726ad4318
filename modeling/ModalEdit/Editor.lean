import ModalEdit.Selection.Basic
import ModalEdit.Text.Edit
import ModalEdit.Toml.Value

/-!
# The editor

The editor owns what commands work on: the document, the selections, the clipboard and the commands
of its own that bindings can call. It may have no document or no clipboard, and it may refuse
edits or commands; a refusal changes nothing.
-/

namespace ModalEdit

/-- Why the editor did not do what a command asked for. -/
inductive EditorError where
  /-- There is no document. -/
  | noActiveEditor
  /-- The edits do not fit the document. -/
  | edit (e : EditError)
  /-- A command of the editor failed. -/
  | command (name reason : String)
deriving DecidableEq, Repr

/-- The error in words. -/
def EditorError.message : EditorError → String
  | noActiveEditor => "no active editor"
  | edit e => s!"edit rejected: {e.message}"
  | command name reason => s!"command `{name}` failed: {reason}"

/-- The state of the editor. -/
structure Editor where
  /-- The document that is open. -/
  document : Option Document
  /-- The selections; the first one is the primary cursor. With a document there is always one. -/
  selections : List Selection := []
  /-- The text on the clipboard, if there is a clipboard. -/
  clipboard : Option Text := some []
  /-- The language of the document. -/
  language : Option String := none
  /-- The editor's own commands called so far, with their arguments. -/
  executed : List (String × Option Toml.Value) := []
  /-- The position last brought into view. -/
  revealed : Option Position := none
  /-- Edits are refused. -/
  readonly : Bool := false
  /-- The editor's own commands are refused. -/
  refusing : Bool := false

namespace Editor

/-- An editor with a document and cursors, one at the start if none are given. -/
def ofDocument (d : Document) (cursors : List Position) : Editor where
  document := some d
  selections := (if cursors.isEmpty then [.origin] else cursors).map .cursor

/-- An editor without a document. -/
def closed : Editor where
  document := none

variable (e : Editor)

/-- The text of the document, empty without one. -/
def text : Text := (e.document.map (·.text)).getD []

/-- The moving end of each selection. -/
def cursors : List Position := e.selections.map (·.active)

/-- Make a batch of edits in the document `d`, which is the one that is open. An empty batch never
reaches the editor. -/
def commit (d : Document) (edits : List Edit) : Except EditorError (Editor × Document × Plan) := do
  let (after, plan) ← (d.edit edits).mapError .edit
  if edits.isEmpty then return (e, after, plan)
  if e.readonly then throw (.command "apply_edits" "document is read-only")
  return ({ e with document := some after }, after, plan)

/-- Set the selections and bring the first one into view. -/
def select (sels : List Selection) : Editor :=
  { e with
    selections := sels
    revealed := (sels.head?.map (·.active)).or e.revealed }

/-- Set cursors, each position once, and bring the first one into view. -/
def setCursors (ps : List Position) : Editor :=
  e.select (ps.eraseDups.map .cursor)

/-- Call a command of the editor. -/
def execute (command : String) (args : Option Toml.Value) : Except EditorError Editor :=
  if e.refusing then .error (.command command "refused")
  else .ok { e with executed := e.executed ++ [(command, args)] }

end Editor

end ModalEdit
