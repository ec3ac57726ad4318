import ModalEdit.Text.Document

/-!
# Steps by character and by line

Each walk takes a position to a position. Sideways walks first move the position into the document;
walks up and down keep the column as it is, even past the end of the line they reach.
-/

namespace ModalEdit

/-- One line up. -/
def Position.up (p : Position) : Position := if p.line > 0 then ⟨p.line - 1, p.col⟩ else p

namespace Document

variable (d : Document)

/-- One character to the left within the line. -/
def left (p : Position) : Position :=
  let p := d.clamp p
  ⟨p.line, p.col - 1⟩

/-- One character to the right, at most to the end of the line. -/
def right (p : Position) : Position :=
  let p := d.clamp p
  ⟨p.line, min (p.col + 1) (d.lineLen p.line)⟩

/-- One line down. Numbers of lines are not bounded: at line `2 ^ 64 - 1`, where one more overflows
a machine word, the position stays where it is, as it does everywhere below the text. -/
def down (p : Position) : Position := if p.line + 1 < d.lineCount then ⟨p.line + 1, p.col⟩ else p

/-- The start of the line. -/
def toLineStart (p : Position) : Position := ⟨(d.clamp p).line, 0⟩

/-- The end of the line. -/
def toLineEnd (p : Position) : Position := d.lineEnd (d.clamp p).line

/-- The first character of the line that is not white space. -/
def toFirstNonBlank (p : Position) : Position :=
  let line := (d.clamp p).line
  ⟨line, d.firstNonBlank line⟩

/-- The first character of the first line that is not white space. -/
def documentStart : Position := ⟨0, d.firstNonBlank 0⟩

/-- The first character of the last line that is not white space. -/
def documentEnd : Position := ⟨d.lastLine, d.firstNonBlank d.lastLine⟩

end Document

end ModalEdit
