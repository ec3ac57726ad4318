import ModalEdit.Command.Paste
import ModalEdit.Command.Typing

/-!
# Commands

The commands that one key, or `r` and one more, calls: leaving a mode, entering Insert mode, the
small edits of Normal mode, the switches of the visual modes and paste.

`Command.run` is the step that each of them takes.
-/

namespace ModalEdit

/-- Where Insert mode begins. -/
inductive InsertPlace where
  /-- Before the character under the cursor. -/
  | before
  /-- Behind it. -/
  | after
  /-- Before the first character of the line that is not white space. -/
  | lineStart
  /-- At the end of the line. -/
  | lineEnd
deriving DecidableEq, Repr

/-- The commands called by one key. -/
inductive Command where
  /-- Leave the mode; in Normal mode drop all cursors but the primary one. -/
  | escape
  /-- Enter Insert mode. -/
  | insert (place : InsertPlace)
  /-- Open a line below or above and enter Insert mode. -/
  | openLine (below : Bool)
  /-- Replace the character under the cursor. -/
  | replaceChar
  /-- Join the line with the next one. -/
  | joinLines
  /-- Paste after or before the cursor. -/
  | paste (after : Bool)
  /-- Switch Visual mode. -/
  | toggleVisual
  /-- Switch visual line mode. -/
  | toggleVisualLine
  /-- Exchange the ends of the selections. -/
  | swapEnds
  /-- Replace the selections by register text and perhaps store what was replaced. -/
  | pasteOver (storeReplaced : Bool)
deriving DecidableEq, Repr

/-- The place for a cursor at which Insert mode begins. -/
def InsertPlace.of (d : Document) (p : Position) : InsertPlace → Position
  | .before => p
  | .after => ⟨p.line, min (p.col + 1) (d.lineLen p.line)⟩
  | .lineStart => ⟨p.line, d.firstNonBlank p.line⟩
  | .lineEnd => d.lineEnd p.line

/-- The blanks and tabs at the front of a line. -/
def Document.indent (d : Document) (i : Nat) : Text :=
  (d.content i).takeWhile fun c => c == ' ' || c == '\t'

/-- The edit that opens a line below or above line `i`, with the same indent. -/
def openLineEdit (d : Document) (below : Bool) (i : Nat) : Edit :=
  if below then .insert (d.lineEnd i) ('\n' :: d.indent i)
  else .insert ⟨i, 0⟩ (d.indent i ++ ['\n'])

/-- How many characters of the line `next` are dropped when it is joined to `current`: the white
space at its front and, if both lines are comments, the comment token and the white space behind it.
-/
def joinSkip (current next : Text) (comment : Option Text) : Nat :=
  let indent := (next.takeWhile isBlank).length
  let rest := next.drop indent
  match comment with
  | none => indent
  | some token =>
    if token.isEmpty ∨ ¬ token.isPrefixOf (current.dropWhile isBlank) ∨ ¬ token.isPrefixOf rest then
      indent
    else indent + token.length + ((rest.drop token.length).takeWhile isBlank).length

/-- The edit that joins line `i` with the next one. A space takes the place of the break, except
behind white space and before nothing or a closing bracket. -/
def joinEdit (d : Document) (comment : Option Text) (i : Nat) : Edit :=
  let current := d.content i
  let next := d.content (i + 1)
  let skip := joinSkip current next comment
  let rest := next.drop skip
  let bare := current.isEmpty || current.getLast?.any isBlank
  let sep := if bare || rest.isEmpty || rest.head? == some ')' then [] else [' ']
  .replace (.between (d.lineEnd i) ⟨i + 1, skip⟩) sep

/-- The text that a key puts in the place of a character. -/
def Key.replacement? : Option Key → Option Text
  | some (.char c) => some [c]
  | some (.named .enter) => some ['\n']
  | _ => none

namespace State

variable (s : State) (settings : Settings) (d : Document)

/-- Leave the current mode. -/
def escape : State :=
  match s.mode with
  | .normal =>
    match s.selections with
    | [] => s
    | sel :: _ => s.setCursors [settings.placement.clamp d sel.active]
  | .insert =>
    (s.setCursors ((s.cursorsIn d).map (settings.placement.afterInsert d))).setMode .normal
  | .visual | .visualLine => s.collapse settings.placement d

/-- Enter Insert mode. -/
def enterInsert (place : InsertPlace) : State :=
  (s.setCursors ((s.cursorsIn d).map fun p => place.of d p)).setMode .insert

/-- The batch that opens a line at every line that holds a cursor. -/
def openLineEdits (below : Bool) : List Edit := (s.cursorLines d).map (openLineEdit d below)

/-- The batch that replaces the character under every cursor that stands on one. -/
def replaceCharEdits (text : Text) : List Edit :=
  ((s.cursorsIn d).filter fun p => p.col < d.lineLen p.line).map fun p =>
    .replace (.between p ⟨p.line, p.col + 1⟩) text

/-- The batch that joins every line that holds a cursor with the next one. -/
def joinLinesEdits : List Edit :=
  let comment := s.editor.language.bind settings.comment?
  ((s.cursorLines d).filter (· < d.lastLine)).map (joinEdit d comment)

/-- Switch Visual mode. -/
def toggleVisual : State :=
  match s.mode with
  | .visual => s.collapse settings.placement d
  | .visualLine =>
    let toChars (sel : Selection) : Selection :=
      let (a, h) := sel.lineEndpoints
      d.covering ⟨a, 0⟩ (d.clampChar ⟨h, 0⟩)
    (s.select (s.selections.map toChars)).setMode .visual
  | .normal | .insert =>
    let onChar (sel : Selection) : Selection :=
      let c := d.entryChar sel.active
      d.covering c c
    (s.select (s.selections.map onChar)).setMode .visual

/-- Switch visual line mode. -/
def toggleVisualLine : State :=
  match s.mode with
  | .visualLine => s.collapse settings.placement d
  | .visual =>
    let toLines (sel : Selection) : Selection :=
      let (a, h) := d.charEndpoints sel
      d.lineCovering a.line h.line
    (s.select (s.selections.map toLines)).setMode .visualLine
  | .normal | .insert =>
    let onLine (sel : Selection) : Selection :=
      let i := (d.clamp sel.active).line
      d.lineCovering i i
    (s.select (s.selections.map onLine)).setMode .visualLine

/-- Exchange the ends of the selections. -/
def swapEnds : State :=
  let swap (sel : Selection) : Selection :=
    if s.mode = .visualLine then
      let (a, h) := sel.lineEndpoints
      d.lineCovering h a
    else
      let (a, h) := d.charEndpoints sel
      d.covering h a
  s.select (s.selections.map swap)

end State

namespace Step

/-- Open a line at every line that holds a cursor. -/
def openLine (d : Document) (below : Bool) : Step Unit := do
  let edits := (← get).openLineEdits d below
  let (after, plan) ← commit d edits
  let cursors := edits.zipIdx.filterMap fun (edit, i) => do
    if below then
      return after.positionAt (← plan.endOf? i)
    else
      return after.positionAt ((← plan.startOf? i) + edit.text.length - 1)
  modify fun s => (s.setCursors cursors).setMode .insert

/-- Replace the character under every cursor that stands on one. -/
def replaceChar (d : Document) (key : Option Key) : Step Unit := do
  match Key.replacement? key with
  | none => return
  | some text =>
    let edits := (← get).replaceCharEdits d text
    let (after, plan) ← commit d edits
    let cursors := (List.range edits.length).filterMap fun i =>
      (if text = ['\n'] then plan.endOf? i else plan.startOf? i).map after.positionAt
    if ¬ edits.isEmpty then modify (·.setCursors cursors)

/-- Join every line that holds a cursor with the next one. -/
def joinLines (settings : Settings) (d : Document) : Step Unit := do
  let edits := (← get).joinLinesEdits settings d
  let (after, plan) ← commit d edits
  let cursors := (List.range edits.length).filterMap fun i =>
    (plan.startOf? i).map fun o => settings.placement.clamp after (after.positionAt o)
  if ¬ cursors.isEmpty then modify (·.setCursors cursors)

end Step

namespace Command

/-- Run a command; `key` is the key captured. -/
def run (c : Command) (settings : Settings) (d : Document) (key : Option Key) : Step Unit :=
  match c with
  | escape => modify (·.escape settings d)
  | insert place => modify (·.enterInsert d place)
  | openLine below => Step.openLine d below
  | replaceChar => Step.replaceChar d key
  | joinLines => Step.joinLines settings d
  | paste after => Step.paste settings.placement d after
  | toggleVisual => modify (·.toggleVisual settings d)
  | toggleVisualLine => modify (·.toggleVisualLine settings d)
  | swapEnds => modify (·.swapEnds d)
  | pasteOver storeReplaced => Step.pasteOver settings.placement d storeReplaced

end Command

end ModalEdit
