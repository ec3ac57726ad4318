import ModalEdit.Text.Position

/-!
# Selections

A selection has a fixed end and an end that moves. When both are the same it is a cursor.
-/

namespace ModalEdit

/-- A piece of the document with a fixed and a moving end. -/
structure Selection where
  /-- The end that stays. -/
  anchor : Position
  /-- The end that moves. -/
  active : Position
deriving DecidableEq, Repr

namespace Selection

/-- The selection that is a cursor. -/
def cursor (p : Position) : Selection := ⟨p, p⟩

variable (s : Selection)

/-- The selection is a cursor. -/
def isEmpty : Bool := s.anchor == s.active

/-- The end that comes first in the document. -/
def start : Position := min s.anchor s.active

/-- The end that comes last in the document. -/
def stop : Position := max s.anchor s.active

/-- The selected range. -/
def range : Range := .between s.anchor s.active

/-- The same piece with its ends exchanged. -/
def swapped : Selection := ⟨s.active, s.anchor⟩

end Selection

end ModalEdit
