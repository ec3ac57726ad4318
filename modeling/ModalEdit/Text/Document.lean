import ModalEdit.Text.Lines
import ModalEdit.Text.Position
import ModalEdit.Unicode.WhiteSpace

/-!
# Documents

A `Document` is a text seen by lines. It has two coordinate systems: positions, by line and column,
and offsets, which count characters from the start of the text. `offsetOf` and `positionAt`
convert between them; both first move a place outside the document to the nearest one inside.

A line's content leaves out the line feed that ends it. Every other break is part of the content
of its line and counts in its length.
-/

namespace ModalEdit

/-- A text together with its lines. -/
structure Document where
  /-- All characters. -/
  text : Text
  /-- The lines, each with the break that ends it. -/
  lines : List Text := splitLines text
  /-- The lines are those of the text. -/
  lines_eq : lines = splitLines text := by rfl
deriving DecidableEq

namespace Document

/-- The document with the given text. -/
def ofText (t : Text) : Document := { text := t }

theorem eq_of_text {d e : Document} (h : d.text = e.text) : d = e := by
  obtain ⟨t, ls, hl⟩ := d
  obtain ⟨t', ls', hl'⟩ := e
  cases h; cases hl; cases hl'; rfl

@[simp] theorem text_ofText (t : Text) : (ofText t).text = t := rfl

variable (d : Document)

/-- Number of characters. -/
def size : Nat := d.text.length

/-- Number of lines; a final line break opens an empty last line. -/
def lineCount : Nat := d.lines.length

/-- Index of the last line. -/
def lastLine : Nat := d.lineCount - 1

/-- A line with its break. -/
def line? (i : Nat) : Option Text := d.lines[i]?

/-- A line without its line feed; nothing past the last line. -/
def content (i : Nat) : Text := dropBreak ((d.line? i).getD [])

/-- Number of characters of a line without its line feed. -/
def lineLen (i : Nat) : Nat := (d.content i).length

/-- The line is empty or holds white space only. -/
def isBlankLine (i : Nat) : Bool := (d.content i).all isBlank

/-- Which lines are blank, in order. -/
def blankLines : List Bool := d.lines.map fun l => (dropBreak l).all isBlank

/-- Column of the first character of a line that is not white space, or the line's length. -/
def firstNonBlank (i : Nat) : Nat := ((d.content i).takeWhile isBlank).length

/-- Offset of the first character of a line. -/
def lineStart (i : Nat) : Nat := (d.lines.take i).flatten.length

/-- The gap after the last character of a line. -/
def lineEnd (i : Nat) : Position := ⟨i, d.lineLen i⟩

/-- The last position. -/
def endPosition : Position := d.lineEnd d.lastLine

/-- The nearest position that names an existing line and a gap in it. -/
def clamp (p : Position) : Position :=
  let line := min p.line d.lastLine
  ⟨line, min p.col (d.lineLen line)⟩

/-- The position names an existing line and a gap in it. -/
def InBounds (p : Position) : Prop := p.line < d.lineCount ∧ p.col ≤ d.lineLen p.line

instance (p : Position) : Decidable (d.InBounds p) := inferInstanceAs (Decidable (_ ∧ _))

/-- Offset of a position, after clamping it. -/
def offsetOf (p : Position) : Nat :=
  let p := d.clamp p
  d.lineStart p.line + p.col

/-- Line and column of the character with index `o` in a list of lines. The last line takes what
is left. -/
def locate : List Text → Nat → Position
  | [], o => ⟨0, o⟩
  | [_], o => ⟨0, o⟩
  | l :: ls, o =>
    if o < l.length then ⟨0, o⟩
    else
      let p := locate ls (o - l.length)
      ⟨p.line + 1, p.col⟩

/-- Position of an offset; one past the end of the text is the last position's. -/
def positionAt (o : Nat) : Position := locate d.lines (min o d.size)

/-- The character right after a position, within its line. -/
def charAt? (p : Position) : Option Char := (d.content p.line)[p.col]?

/-- The character with the given offset. -/
def charAtOffset? (o : Nat) : Option Char := d.text[o]?

/-- The characters of a range, after clamping its ends. -/
def slice (r : Range) : Text :=
  let s := d.offsetOf r.start
  (d.text.drop s).take (d.offsetOf r.stop - s)

/-- The lines `first` to `last`, each ended by a line feed. -/
def linesText (first last : Nat) : Text :=
  (((d.lines.take (last + 1)).drop first).map fun l => dropBreak l ++ ['\n']).flatten

/-- The gap before a position, stepping over the start of a line to the end of the one before. -/
def stepBack (p : Position) : Position :=
  if p.col > 0 then ⟨p.line, p.col - 1⟩
  else if p.line > 0 then d.lineEnd (p.line - 1)
  else p

/-- The gap after a position, stepping over the end of a line to the start of the next one. -/
def stepForward (p : Position) : Position :=
  if p.col < d.lineLen p.line then ⟨p.line, p.col + 1⟩
  else if p.line < d.lastLine then ⟨p.line + 1, 0⟩
  else d.lineEnd p.line

theorem lines_ne_nil : d.lines ≠ [] := by
  rw [d.lines_eq]; exact splitLines_ne_nil _

theorem lineCount_pos : 0 < d.lineCount := List.length_pos_iff.2 d.lines_ne_nil

theorem lastLine_lt : d.lastLine < d.lineCount := by
  have := d.lineCount_pos
  unfold lastLine; omega

theorem flatten_lines : d.lines.flatten = d.text := by
  rw [d.lines_eq]; exact flatten_splitLines _

theorem inBounds_clamp (p : Position) : d.InBounds (d.clamp p) := by
  have := d.lastLine_lt
  constructor
  · simp only [clamp]; omega
  · exact Nat.min_le_right _ _

theorem clamp_of_inBounds {p : Position} (h : d.InBounds p) : d.clamp p = p := by
  obtain ⟨hl, hc⟩ := h
  have hl' : min p.line d.lastLine = p.line := by unfold lastLine; omega
  simp only [clamp, hl', Nat.min_eq_left hc]

end Document

end ModalEdit
