import ModalEdit.Text.Document

/-!
# Cursor placement

A resting cursor is either a gap between characters, which may be the end of a line, or stands on a
character and never passes the last one of its line. The placement is applied where a walk ends in
Normal mode and where Insert mode is left.
-/

namespace ModalEdit

/-- Where a resting cursor may be. -/
inductive Placement where
  /-- In any gap of a line. -/
  | gap
  /-- On a character of the line, or at the start of an empty one. -/
  | onChar
deriving DecidableEq, Repr

namespace Placement

/-- The last column at which a cursor may rest in a line of `len` characters. -/
def maxCol : Placement → Nat → Nat
  | .gap, len => len
  | .onChar, len => len - 1

/-- The nearest position at which a cursor may rest. -/
def clamp (pl : Placement) (d : Document) (p : Position) : Position :=
  let p := d.clamp p
  ⟨p.line, min p.col (pl.maxCol (d.lineLen p.line))⟩

/-- Where a cursor rests after typing at `p`. -/
def afterInsert (pl : Placement) (d : Document) (p : Position) : Position :=
  let p := d.clamp p
  match pl with
  | .gap => p
  | .onChar => ⟨p.line, p.col - 1⟩

end Placement

end ModalEdit
