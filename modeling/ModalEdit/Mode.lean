/-!
# Modes

The four modes of an editing session, and sets of them, which say where a command is offered.
-/

namespace ModalEdit

/-- What the keys of a session mean at the moment. -/
inductive Mode where
  /-- Keys are commands. -/
  | normal
  /-- Keys are typed into the text. -/
  | insert
  /-- Commands work on selected characters. -/
  | visual
  /-- Commands work on selected lines. -/
  | visualLine
deriving DecidableEq, Repr

namespace Mode

/-- All modes. -/
def all : List Mode := [normal, insert, visual, visualLine]

/-- The name of a mode. -/
def name : Mode → String
  | normal => "normal"
  | insert => "insert"
  | visual => "visual"
  | visualLine => "visual-line"

/-- The mode with the given name; the last one has three spellings. -/
def ofName? (s : String) : Option Mode :=
  if s = "visualline" ∨ s = "visual_line" then some visualLine else all.find? fun m => m.name == s

/-- Commands work on a selection. -/
def isVisual : Mode → Bool
  | visual | visualLine => true
  | _ => false

end Mode

/-- A set of modes. -/
structure ModeSet where
  normal : Bool := false
  insert : Bool := false
  visual : Bool := false
  visualLine : Bool := false
deriving DecidableEq, Repr

namespace ModeSet

/-- No mode. -/
def none : ModeSet := {}

/-- The mode is in the set. -/
def has (s : ModeSet) : Mode → Bool
  | .normal => s.normal
  | .insert => s.insert
  | .visual => s.visual
  | .visualLine => s.visualLine

/-- The set with one mode more. -/
def insertMode (s : ModeSet) : Mode → ModeSet
  | .normal => { s with normal := true }
  | .insert => { s with insert := true }
  | .visual => { s with visual := true }
  | .visualLine => { s with visualLine := true }

/-- The set of the given modes. -/
def ofList (ms : List Mode) : ModeSet := ms.foldl insertMode none

/-- The modes of the set in the order of `Mode.all`. -/
def toList (s : ModeSet) : List Mode := Mode.all.filter s.has

/-- The set as a number: one bit for each mode, in the order of `Mode.all`. -/
def bits (s : ModeSet) : Nat :=
  s.normal.toNat + 2 * s.insert.toNat + 4 * s.visual.toNat + 8 * s.visualLine.toNat

/-- The visual modes. -/
def anyVisual : ModeSet := { visual := true, visualLine := true }

/-- Normal mode and the visual modes. -/
def normalAndVisual : ModeSet := { normal := true, visual := true, visualLine := true }

/-- Every mode. -/
def all : ModeSet := { normal := true, insert := true, visual := true, visualLine := true }

/-- Normal mode only. -/
def onlyNormal : ModeSet := { normal := true }

/-- Insert mode only. -/
def onlyInsert : ModeSet := { insert := true }

end ModeSet

end ModalEdit
