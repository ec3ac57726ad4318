import ModalEdit.Text.Document

/-!
# Edits

A batch of edits is read against one document. `Document.plan` checks the batch: every end of every
range must be in bounds, and no two edits may overlap. The plan holds the edits as offsets, in
document order; edits that start at the same offset keep the order of the batch.

* `Plan.apply` gives the new text; the edits are made from the last to the first, so that each
  offset still counts from the start of the old text;
* `Plan.startOf?` and `Plan.endOf?` say where the text of an edit lies in the new text;
* `Plan.mapOffset` follows an offset of the old text into the new one.
-/

namespace ModalEdit

/-- One replacement: the text that takes the place of a range. -/
structure Edit where
  /-- The piece that is replaced. -/
  range : Range
  /-- What is put there. -/
  text : Text
deriving DecidableEq, Repr

namespace Edit

/-- Remove a range. -/
def delete (r : Range) : Edit := ⟨r, []⟩

/-- Put text at a position. -/
def insert (p : Position) (t : Text) : Edit := ⟨.emptyAt p, t⟩

/-- Put text in the place of a range. -/
def replace (r : Range) (t : Text) : Edit := ⟨r, t⟩

end Edit

/-- Why a batch of edits is refused. -/
inductive EditError where
  /-- An end of a range is no position of the document. -/
  | outOfBounds (p : Position)
  /-- The edit that starts at `offset` starts inside the one before it. -/
  | overlap (offset : Nat)
deriving DecidableEq, Repr

namespace EditError

/-- The error in words. -/
def message : EditError → String
  | outOfBounds p => s!"edit position {p.line}:{p.col} is outside the buffer"
  | overlap o => s!"edits overlap at char offset {o}"

end EditError

/-- An edit by offsets. -/
structure OffsetEdit where
  /-- Offset of the first character replaced. -/
  start : Nat
  /-- Offset behind the last character replaced. -/
  stop : Nat
  /-- What is put there. -/
  text : Text
  /-- Place of the edit in its batch. -/
  index : Nat
deriving DecidableEq, Repr

/-- A checked batch of edits in document order. -/
structure Plan where
  /-- The edits, by ascending start. -/
  edits : List OffsetEdit
deriving DecidableEq, Repr

/-- Make one replacement in a text. -/
def splice (t : Text) (e : OffsetEdit) : Text := t.take e.start ++ e.text ++ t.drop e.stop

namespace Plan

/-- The text after all edits. -/
def apply (plan : Plan) (t : Text) : Text := plan.edits.foldr (fun e t => splice t e) t

/-- The edits with the offset in the new text at which the text of each begins. `added` and
`removed` count the characters put in and taken out by the edits before. -/
def placed (added removed : Nat) : List OffsetEdit → List (OffsetEdit × Nat)
  | [] => []
  | e :: es =>
    (e, e.start + added - removed) ::
      placed (added + e.text.length) (removed + (e.stop - e.start)) es

/-- The edit with the given place in the batch and where its text begins in the new text. -/
def find? (plan : Plan) (i : Nat) : Option (OffsetEdit × Nat) :=
  (placed 0 0 plan.edits).find? fun e => e.1.index == i

/-- Where the text of an edit begins in the new text. -/
def startOf? (plan : Plan) (i : Nat) : Option Nat := (plan.find? i).map (·.2)

/-- Where the text of an edit ends in the new text. -/
def endOf? (plan : Plan) (i : Nat) : Option Nat :=
  (plan.find? i).map fun e => e.2 + e.1.text.length

/-- Follow an offset through edits still to come. -/
def follow (added removed : Nat) : List OffsetEdit → Nat → Nat
  | [], o => o + added - removed
  | e :: es, o =>
    if o < e.start then o + added - removed
    else if o < e.stop then e.start + added - removed
    else follow (added + e.text.length) (removed + (e.stop - e.start)) es o

/-- The offset in the new text of an offset of the old one. Inside a replaced piece it is where the
new text begins; where text is only put in, it is behind that text. -/
def mapOffset (plan : Plan) (o : Nat) : Nat := follow 0 0 plan.edits o

/-- Number of edits. -/
def size (plan : Plan) : Nat := plan.edits.length

end Plan

namespace Document

variable (d : Document)

/-- Refuse a position outside the document. -/
def checkInBounds (p : Position) : Except EditError Unit :=
  if d.InBounds p then .ok () else .error (.outOfBounds p)

/-- The offsets of one edit of a batch. -/
def resolve (e : Edit) (index : Nat) : Except EditError OffsetEdit := do
  d.checkInBounds e.range.start
  d.checkInBounds e.range.stop
  return ⟨d.offsetOf e.range.start, d.offsetOf e.range.stop, e.text, index⟩

/-- The offsets of all edits of a batch, the first of which has place `index`. -/
def resolveFrom (index : Nat) : List Edit → Except EditError (List OffsetEdit)
  | [] => .ok []
  | e :: es => do
    let e ← d.resolve e index
    let es ← resolveFrom (index + 1) es
    return e :: es

/-- Offset of the first edit that starts before its predecessor has ended. -/
def firstOverlap : List OffsetEdit → Option Nat
  | e :: f :: es => if f.start < e.stop then some f.start else firstOverlap (f :: es)
  | _ => none

/-- Check a batch of edits against the document. -/
def plan (edits : List Edit) : Except EditError Plan := do
  let resolved ← d.resolveFrom 0 edits
  let sorted := resolved.mergeSort fun a b => decide (a.start ≤ b.start)
  match firstOverlap sorted with
  | some o => throw (.overlap o)
  | none => return ⟨sorted⟩

/-- The document after a batch of edits, with the plan that was followed. -/
def edit (edits : List Edit) : Except EditError (Document × Plan) := do
  let plan ← d.plan edits
  return (ofText (plan.apply d.text), plan)

end Document

end ModalEdit
