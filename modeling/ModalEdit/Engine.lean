import ModalEdit.Keymap

/-!
# The engine

The engine turns key presses into commands. It puts each key behind those still pending and offers
all of them to the actions of the current mode, one after the other. The first action that runs uses
the keys up. If none does, the keys stay pending when they are the beginning of what some action
asks for, and are dropped otherwise.
-/

namespace ModalEdit

/-- What becomes of a key. -/
inductive KeyOutcome where
  /-- The action of this name ran, and the pending keys are used up. -/
  | executed (action : String)
  /-- The keys wait for more. -/
  | pending
  /-- The keys mean nothing and are dropped. -/
  | reset
  /-- There is no document, or an action failed. The pending keys stay. -/
  | aborted
deriving DecidableEq, Repr

/-- Who changed the selections. -/
inductive SelectionSource where
  | pointer | keyboard | command
deriving DecidableEq, Repr

/-- The engine: the actions, the settings and the session. -/
structure Engine where
  /-- The actions in the order in which they are tried. -/
  keymap : Keymap := .builtin
  /-- What the user has configured. -/
  settings : Settings := {}
  /-- What is remembered from key to key. -/
  session : Session := {}

/-- What offering keys to the actions one after the other comes to. -/
inductive Offer where
  /-- An action ran. -/
  | executed (action : String)
  /-- No action ran; `waiting` if some of them need more keys. -/
  | declined (waiting : Bool)

/-- Offer keys to actions. `waiting` says that an action before them needs more keys. -/
def Keymap.offer (settings : Settings) (keys : List Key) (waiting : Bool) : Keymap → Step Offer
  | [] => return .declined waiting
  | a :: rest => do
    match ← a.answer settings keys with
    | .executed => return .executed a.name
    | .needsMore => offer settings keys true rest
    | .noMatch => offer settings keys waiting rest

namespace Engine

variable (e : Engine)

/-- The engine with another session. -/
def withSession (session : Session) : Engine := { e with session }

/-- Handle one key. -/
def handleKey (ed : Editor) (key : Key) : KeyOutcome × Engine × Editor :=
  if ed.document.isNone then (.aborted, e, ed)
  else
    let keys := e.session.pending ++ [key]
    match (e.keymap.forMode e.session.mode).offer e.settings keys false ⟨ed, e.session⟩ with
    | .ok (.executed action) s =>
      (.executed action, e.withSession { s.session with pending := [] }, s.editor)
    | .ok (.declined true) s =>
      (.pending, e.withSession { s.session with pending := s.session.pending ++ [key] }, s.editor)
    | .ok (.declined false) s =>
      (.reset, e.withSession { s.session with pending := [] }, s.editor)
    | .error _ s => (.aborted, e.withSession s.session, s.editor)

/-- Handle keys one after the other. -/
def handleKeys : Engine → Editor → List Key → List KeyOutcome × Engine × Editor
  | e, ed, [] => ([], e, ed)
  | e, ed, k :: ks =>
    let (o, e, ed) := e.handleKey ed k
    let (os, e, ed) := handleKeys e ed ks
    (o :: os, e, ed)

/-- Handle the keys of a script. -/
def feed (ed : Editor) (script : List Char) : Except KeyError (List KeyOutcome × Engine × Editor) :=
  (parseKeys script).map (e.handleKeys ed)

/-- The mode after the selections have been changed from outside: selecting text enters Visual mode,
and a click that selects nothing leaves the visual modes. -/
def modeAfterSelection (ed : Editor) (source : SelectionSource) : Mode :=
  let selected := ed.selections.any fun s => !s.isEmpty
  match e.session.mode with
  | .normal => if selected then .visual else .normal
  | .insert => .insert
  | m => if !selected && source == .pointer then .normal else m

/-- React to a change of the selections from outside. -/
def onSelectionChange (ed : Editor) (source : SelectionSource) : Engine :=
  { e with session := { e.session with mode := e.modeAfterSelection ed source } }

/-- Take up other actions and settings and drop the pending keys. -/
def reload (keymap : Keymap) (settings : Settings) : Engine :=
  { keymap, settings, session := { e.session with pending := [] } }

end Engine

end ModalEdit
