import ModalEdit.Command.Operator
import ModalEdit.Selection.Extent

/-!
# Paste

Paste puts register text at every cursor, or in the place of every selection. With one entry per
cursor each cursor gets its own: the entries are in document order, so the cursor that comes `k`-th
in the document gets the `k`-th entry. With any other number every cursor gets all entries in one.
-/

namespace ModalEdit

/-- The entries matched with the selections: the `k`-th entry goes to the selection that comes
`k`-th in the document. -/
def byPosition (sels : List Selection) (entries : List RegisterEntry) : List RegisterEntry :=
  let order := sels.zipIdx.mergeSort fun a b => decide (a.1.start ≤ b.1.start)
  let assigned := (order.map (·.2)).zip entries
  (List.range sels.length).filterMap fun i => assigned.lookup i

namespace State

/-- The register entry that each selection pastes; none at all if the registers are empty. -/
def pasteEntries (s : State) : List RegisterEntry :=
  byPosition s.selections (s.session.registers.forCursors s.selections.length)

end State

/-- The edit that pastes an entry after or before a cursor. Whole lines go below or above the
cursor's line. -/
def pasteEdit (d : Document) (after : Bool) (sel : Selection) (e : RegisterEntry) : Edit :=
  let p := d.clamp sel.active
  match e.linewise, after with
  | true, true => .insert (d.lineEnd p.line) ('\n' :: e.body)
  | true, false => .insert ⟨p.line, 0⟩ e.text
  | false, true => .insert ⟨p.line, min (p.col + 1) (d.lineLen p.line)⟩ e.text
  | false, false => .insert p e.text

/-- Where the cursor rests after its entry was pasted: on the first pasted line, or on the last
pasted character. -/
def pastedTo (pl : Placement) (d : Document) (after : Bool) (e : RegisterEntry) (start stop : Nat) :
    Position :=
  if e.linewise then
    let line := (d.positionAt (start + after.toNat)).line
    pl.clamp d ⟨line, d.firstNonBlank line⟩
  else pl.clamp d (d.positionAt (max (stop - 1) start))

/-- The text that takes the place of a selected range, so that lines stay lines. -/
def replacement (r : Range) (e : RegisterEntry) : Text :=
  match r.lines with
  | some l => if r.start.line < l.first then '\n' :: e.body else e.body ++ ['\n']
  | none => if e.linewise then '\n' :: e.text else e.text

/-- Where the cursor rests after the selected range has been replaced. -/
def replacedTo (pl : Placement) (d : Document) (edit : Edit) (e : RegisterEntry) (start : Nat) :
    Position :=
  let p := d.positionAt (if edit.text.head? = some '\n' then start + 1 else start)
  if edit.range.isLinewise ∨ e.linewise then pl.clamp d ⟨p.line, d.firstNonBlank p.line⟩
  else pl.clamp d p

/-- The range that an operator takes for a selection in the current mode. -/
def State.selectedRange (s : State) (d : Document) (withBreak : Bool) (sel : Selection) : Range :=
  if s.mode = .visualLine then
    let (a, h) := sel.lineEndpoints
    d.linesSpan (min a h) (max a h) withBreak
  else sel.range

namespace State

/-- The head of a selection in the current mode. -/
def head (s : State) (d : Document) (sel : Selection) : Position :=
  if s.mode = .visualLine then ⟨sel.lineEndpoints.2, 0⟩ else (d.charEndpoints sel).2

/-- Turn every selection into a cursor on its head and go back to Normal mode. -/
def collapse (s : State) (pl : Placement) (d : Document) : State :=
  (s.setCursors (s.selections.map fun sel => pl.clamp d (s.head d sel))).setMode .normal

/-- The batch of a paste at every cursor. -/
def pasteEdits (s : State) (d : Document) (after : Bool) : List Edit :=
  s.selections.zipWith (pasteEdit d after) s.pasteEntries

/-- The batch of a paste in the place of every selection. -/
def pasteOverEdits (s : State) (d : Document) : List Edit :=
  (s.selections.map (s.selectedRange d true)).zipWith
    (fun r e => Edit.replace r (replacement r e)) s.pasteEntries

end State

namespace Step

/-- Paste at every cursor. Text that someone else has put on the clipboard is adopted first. -/
def paste (pl : Placement) (d : Document) (after : Bool) : Step Unit := do
  modify (·.syncRegisters)
  let s ← get
  let entries := s.pasteEntries
  if entries.isEmpty then return
  let (d', plan) ← commit d (s.pasteEdits d after)
  let cursors := entries.zipIdx.filterMap fun (e, i) => do
    let start ← plan.startOf? i
    let stop ← plan.endOf? i
    return pastedTo pl d' after e start stop
  modify (·.setCursors cursors)

/-- Replace every selection by register text. Text that someone else has put on the clipboard is
adopted first. With `storeReplaced` the text replaced goes to the registers. -/
def pasteOver (pl : Placement) (d : Document) (storeReplaced : Bool) : Step Unit := do
  modify (·.syncRegisters)
  let s ← get
  let entries := s.pasteEntries
  if entries.isEmpty then
    modify (·.collapse pl d)
    return
  let inOrder := (s.selections.map (s.selectedRange d true)).mergeSort fun a b =>
    decide (a.start ≤ b.start)
  let edits := s.pasteOverEdits d
  let (d', plan) ← commit d edits
  let cursors := (edits.zip entries).zipIdx.filterMap fun ((edit, e), i) => do
    let start ← plan.startOf? i
    return replacedTo pl d' edit e start
  if storeReplaced then modify (·.writeRegisters (inOrder.map d.registerEntry))
  modify fun s => (s.setCursors cursors).setMode .normal

end Step

end ModalEdit
