import ModalEdit.State

/-!
# Typing

In Insert mode a key that types a character puts it at every cursor; a selection is replaced by it.
Backspace and delete remove the character before or after the cursor, or the selection.
-/

namespace ModalEdit

/-- What a key does to the text. -/
inductive Typed where
  /-- Put text at the cursor. -/
  | text (t : Text)
  /-- Remove the character before the cursor. -/
  | deleteBefore
  /-- Remove the character after the cursor. -/
  | deleteAfter
deriving DecidableEq, Repr

/-- What a key does to the text, if it types. -/
def Key.typed? : Key → Option Typed
  | .char c => some (.text [c])
  | .named .enter => some (.text ['\n'])
  | .named .tab => some (.text ['\t'])
  | .named .backspace => some .deleteBefore
  | .named .delete => some .deleteAfter
  | _ => none

/-- The edit that a typed key makes at a selection. At the ends of the document there may be nothing
to remove. -/
def Typed.edit? (t : Typed) (d : Document) (sel : Selection) : Option Edit :=
  let p := d.clamp sel.active
  match t with
  | .text t => some (.replace sel.range t)
  | .deleteBefore =>
    if ¬ sel.isEmpty then some (.delete sel.range)
    else if p = .origin then none
    else some (.delete (.between (d.stepBack p) p))
  | .deleteAfter =>
    if ¬ sel.isEmpty then some (.delete sel.range)
    else if p < d.endPosition then some (.delete (.between p (d.stepForward p)))
    else none

/-- Where the cursors are after the edits: behind the text of their own edit, or where the others
have moved them. The first edit has place `k` in the plan. -/
def typedTo (d after : Document) (plan : Plan) (k : Nat) :
    List (Selection × Option Edit) → List Position
  | [] => []
  | (_, some _) :: rest =>
    after.positionAt ((plan.endOf? k).getD 0) :: typedTo d after plan (k + 1) rest
  | (sel, none) :: rest =>
    after.positionAt (plan.mapOffset (d.offsetOf sel.active)) :: typedTo d after plan k rest

/-- What a typed key does at every selection; equal selections that follow each other count once. -/
def State.typings (s : State) (d : Document) (t : Typed) : List (Selection × Option Edit) :=
  s.selections.eraseReps.map fun sel => (sel, t.edit? d sel)

/-- Type a key at every selection. -/
def Step.type (d : Document) (t : Typed) : Step Unit := do
  let typings := (← get).typings d t
  let (after, plan) ← commit d (typings.filterMap (·.2))
  modify (·.setCursors (typedTo d after plan 0 typings))

end ModalEdit
