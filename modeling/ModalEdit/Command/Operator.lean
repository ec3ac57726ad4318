import ModalEdit.Span.TextObject
import ModalEdit.State

/-!
# Operators

An operator works on one range per cursor. The ranges are merged, so that no character is taken
twice, and are then removed in a single batch of edits; their text goes to the registers in document
order. A cursor without a range stays where it is and only follows the edits.

`OperatorKind.compose` finds the ranges: the first text object that the keys name at any cursor
wins.
-/

namespace ModalEdit

namespace Range

/-- A range of whole lines that takes a line break with it. -/
def takesBreak (r : Range) : Bool :=
  match r.lines with
  | some l => decide (r.start.line < l.first) || decide (l.last < r.stop.line)
  | none => false

/-- Order by start and then by end. -/
def precedes (r s : Range) : Bool :=
  decide (r.start < s.start) || (r.start == s.start && decide (r.stop ≤ s.stop))

/-- One range for two that overlap. Whole lines stay whole lines only together, and then take one
break if either did. -/
def union (d : Document) (r s : Range) : Range :=
  match r.lines, s.lines with
  | some a, some b =>
    d.linesSpan (min a.first b.first) (max a.last b.last) (r.takesBreak || s.takesBreak)
  | _, _ => .between r.start (max r.stop s.stop)

/-- Merge the range `last` with those of an ascending list that overlap it or are equal to it, and
so on with the rest. -/
def mergeFrom (d : Document) (last : Range) : List Range → List Range
  | [] => [last]
  | r :: rs =>
    if r.start < last.stop ∨ r = last then mergeFrom d (last.union d r) rs
    else last :: mergeFrom d r rs

end Range

namespace Document

variable (d : Document)

/-- Sort ranges and merge those that overlap. -/
def mergeRanges (rs : List Range) : List Range :=
  match rs.mergeSort Range.precedes with
  | [] => []
  | r :: rs => r.mergeFrom d rs

/-- The register entry for a range: its lines if it stands for lines, else its characters. -/
def registerEntry (r : Range) : RegisterEntry :=
  match r.lines with
  | some l => .ofLines (d.linesText l.first l.last)
  | none => .charwise (d.slice r)

end Document

/-- A selection and the range an operator takes there, if any. -/
abbrev Target := Selection × Option Range

namespace OperatorKind

/-- Where the cursor of a target without a range is. -/
def restingPlace (ofSelection : Bool) (sel : Selection) : Position :=
  if ofSelection then sel.start else sel.active

/-- Where the cursor goes when a target has been yanked. -/
def yankedTo (ofSelection : Bool) : Target → Position
  | (sel, some r) =>
    match r.lines with
    | some l => if ofSelection then ⟨l.first, 0⟩ else sel.active
    | none => r.start
  | (sel, none) => restingPlace ofSelection sel

/-- Where the cursor goes when the targets have been removed from the document `d`, which has become
`after`. Typing goes on right there; otherwise the cursor comes to rest, after whole lines on the
first character of the line. -/
def removedTo (kind : OperatorKind) (pl : Placement) (d after : Document) (plan : Plan)
    (ofSelection : Bool) (t : Target) : Position :=
  let origin := (t.2.map (·.start)).getD (restingPlace ofSelection t.1)
  let p := after.positionAt (plan.mapOffset (d.offsetOf origin))
  if kind = .change then p
  else if t.2.any Range.isLinewise then pl.clamp after ⟨p.line, after.firstNonBlank p.line⟩
  else pl.clamp after p

/-- The batch that removes ranges; a range that holds nothing needs no edit. -/
def deletions (merged : List Range) : List Edit :=
  (merged.filter fun r => !r.isEmpty).map Edit.delete

/-- Run the operator on targets. `ofSelection` says that the ranges are the selections
themselves. -/
def apply (kind : OperatorKind) (pl : Placement) (d : Document) (targets : List Target)
    (ofSelection : Bool) : Step Unit := do
  let merged := d.mergeRanges (targets.filterMap (·.2))
  let entries := (merged.map d.registerEntry).filter fun e => !e.text.isEmpty
  if kind = .yank then
    let cursors := targets.map fun t => pl.clamp d (yankedTo ofSelection t)
    modify fun s => ((s.writeRegisters entries).setCursors cursors).setMode .normal
  else
    let (after, plan) ← Step.commit d (deletions merged)
    let cursors := targets.map (kind.removedTo pl d after plan ofSelection)
    modify fun s => ((s.writeRegisters entries).setCursors cursors).setMode
      (if kind = .change then .insert else .normal)

/-- What a text object finds at every selection, if it finds something at one of them. -/
def targetsOf (d : Document) (u : Purpose) (sels : List Selection) (keys : List Key)
    (o : TextObject) : Option (List (Selection × Option ObjectRange)) :=
  let found := sels.map fun sel => (sel, (o.compute d u sel.active keys).result?)
  if found.any (·.2.isSome) then some found else none

/-- The keys are the beginning of a text object at one of the selections. -/
def awaits (d : Document) (u : Purpose) (sels : List Selection) (keys : List Key)
    (objects : List TextObject) : Bool :=
  objects.any fun o => sels.any fun sel => (o.compute d u sel.active keys).isPartly

/-- Run the operator on the first text object that the keys name at any cursor. -/
def compose (kind : OperatorKind) (settings : Settings) (d : Document) (keys : List Key) :
    Step Reply := do
  let s ← get
  let u : Purpose := ⟨some kind, s.session.lastFind⟩
  let objects := TextObject.wholeLine kind :: TextObject.defaults
  match objects.findSome? (targetsOf d u s.selections keys) with
  | some found =>
    kind.apply settings.placement d (found.map fun t => (t.1, t.2.map (·.range))) false
    modify (·.remember (found.findSome? fun t => t.2.bind (·.find)))
    return .executed
  | none => return if awaits d u s.selections keys objects then .needsMore else .noMatch

end OperatorKind

end ModalEdit
