/-!
# Positions and ranges

A position is a line and a column, both counted from zero. A column is a gap: column `c` lies
before the character with that index, and the length of the line is the gap after its last one.
Positions are ordered as they follow each other in a document, first by line and then by column.

A `Range` is the half-open piece between two positions. It may be tagged with the lines it stands
for; operators and paste treat a tagged range as whole lines.
-/

namespace ModalEdit

/-- A place in a document: a line and a gap in it. -/
structure Position where
  /-- Index of the line. -/
  line : Nat
  /-- Number of characters of the line before the position. -/
  col : Nat
deriving DecidableEq, Repr

namespace Position

/-- The first position of every document. -/
def origin : Position := ⟨0, 0⟩

/-- Document order. -/
instance : LE Position := ⟨fun a b => a.line < b.line ∨ (a.line = b.line ∧ a.col ≤ b.col)⟩

/-- Strict document order. -/
instance : LT Position := ⟨fun a b => a.line < b.line ∨ (a.line = b.line ∧ a.col < b.col)⟩

theorem le_def {a b : Position} :
    a ≤ b ↔ a.line < b.line ∨ (a.line = b.line ∧ a.col ≤ b.col) := Iff.rfl

theorem lt_def {a b : Position} :
    a < b ↔ a.line < b.line ∨ (a.line = b.line ∧ a.col < b.col) := Iff.rfl

instance (a b : Position) : Decidable (a ≤ b) := decidable_of_iff' _ le_def

instance (a b : Position) : Decidable (a < b) := decidable_of_iff' _ lt_def

instance : Min Position := minOfLe

instance : Max Position := maxOfLe

theorem ext_iff' {a b : Position} : a = b ↔ a.line = b.line ∧ a.col = b.col := by
  cases a; cases b; simp

protected theorem le_refl (a : Position) : a ≤ a := Or.inr ⟨rfl, Nat.le_refl _⟩

protected theorem le_total (a b : Position) : a ≤ b ∨ b ≤ a := by
  simp only [le_def]; omega

protected theorem le_trans {a b c : Position} (h : a ≤ b) (h' : b ≤ c) : a ≤ c := by
  simp only [le_def] at *; omega

protected theorem le_antisymm {a b : Position} (h : a ≤ b) (h' : b ≤ a) : a = b := by
  simp only [le_def, ext_iff'] at *; omega

protected theorem not_le {a b : Position} : ¬ a ≤ b ↔ b < a := by
  simp only [le_def, lt_def]; omega

protected theorem not_lt {a b : Position} : ¬ a < b ↔ b ≤ a := by
  simp only [le_def, lt_def]; omega

end Position

/-- The lines `first` to `last`, both included. -/
structure LineSpan where
  /-- First line. -/
  first : Nat
  /-- Last line. -/
  last : Nat
deriving DecidableEq, Repr

/-- The piece of a document from `start` up to but not including `stop`. -/
structure Range where
  /-- Where the piece begins. -/
  start : Position
  /-- Where the piece ends. -/
  stop : Position
  /-- The whole lines the range stands for, if it stands for lines. -/
  lines : Option LineSpan := none
deriving DecidableEq, Repr

namespace Range

/-- The range between two positions given in either order. -/
def between (a b : Position) : Range :=
  if a ≤ b then ⟨a, b, none⟩ else ⟨b, a, none⟩

/-- The range at `p` that holds nothing. -/
def emptyAt (p : Position) : Range := ⟨p, p, none⟩

/-- The piece of a line between two columns. -/
def inLine (line a b : Nat) : Range := between ⟨line, a⟩ ⟨line, b⟩

/-- The same piece, standing for the lines `first` to `last`. -/
def withLines (r : Range) (first last : Nat) : Range := { r with lines := some ⟨first, last⟩ }

/-- The range stands for whole lines. -/
def isLinewise (r : Range) : Bool := r.lines.isSome

/-- The range holds nothing. -/
def isEmpty (r : Range) : Bool := r.start == r.stop

/-- `p` lies in the range; its end does not. -/
def contains (r : Range) (p : Position) : Bool := decide (r.start ≤ p) && decide (p < r.stop)

/-- `other` lies within `r`; ends may be shared. -/
def encloses (r other : Range) : Bool :=
  decide (r.start ≤ other.start) && decide (other.stop ≤ r.stop)

theorem between_start_le (a b : Position) : (between a b).start ≤ (between a b).stop := by
  unfold between
  split
  · assumption
  · exact (Position.le_total a b).resolve_left ‹_›

theorem between_of_le {a b : Position} (h : a ≤ b) : between a b = ⟨a, b, none⟩ := if_pos h

theorem between_comm (a b : Position) : between a b = between b a := by
  unfold between
  split <;> split
  · rw [Position.le_antisymm ‹a ≤ b› ‹b ≤ a›]
  · rfl
  · rfl
  · exact absurd ((Position.le_total a b).resolve_left ‹_›) ‹_›

end Range

end ModalEdit
