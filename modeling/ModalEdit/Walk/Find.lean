import ModalEdit.Text.Document

/-!
# Finding a character in the line

`find?` looks for a character in the cursor's line, after or before the cursor. The walk ends on the
character found or one short of it. Repeating a search that stops short skips the character right
next to the cursor, so that it does not stay where it is.
-/

namespace ModalEdit

/-- The side of the cursor that is searched. -/
inductive FindDirection where
  /-- Towards the start of the line. -/
  | before
  /-- Towards the end of the line. -/
  | after
deriving DecidableEq, Repr

/-- The other side. -/
def FindDirection.reversed : FindDirection → FindDirection
  | .before => .after
  | .after => .before

/-- Where a search ends. -/
inductive FindDistance where
  /-- One character short of the one found. -/
  | nearer
  /-- On the character found. -/
  | further
deriving DecidableEq, Repr

/-- A character search. -/
structure Find where
  /-- The character looked for. -/
  target : Char
  /-- Where the search ends. -/
  distance : FindDistance
  /-- The side searched. -/
  direction : FindDirection
deriving DecidableEq, Repr

/-- The same search on the other side. -/
def Find.reversed (f : Find) : Find := { f with direction := f.direction.reversed }

/-- The column a search ends on once it has found its character in column `i`. -/
def Find.landing (f : Find) (i : Nat) : Nat :=
  match f.distance, f.direction with
  | .further, _ => i
  | .nearer, .after => i - 1
  | .nearer, .before => i + 1

/-- The columns searched from column `col` of a line of `len` characters, nearest first. The first
`skip` columns in the direction of the search are left out, the cursor's own included. -/
def FindDirection.columns (dir : FindDirection) (col len skip : Nat) : List Nat :=
  match dir with
  | .after => List.range' (col + skip) (len - (col + skip))
  | .before => (List.range (col + 1 - skip)).reverse

/-- The position a search leads to, if the character is there. -/
def Document.find? (d : Document) (f : Find) (again : Bool) (p : Position) : Option Position :=
  let p := d.clamp p
  let content := d.content p.line
  let skip := if f.distance = .nearer ∧ again then 2 else 1
  let hit := (f.direction.columns p.col content.length skip).find? fun i =>
    content[i]? == some f.target
  hit.map fun i => ⟨p.line, f.landing i⟩

end ModalEdit
