import ModalEdit.Selection.Basic
import ModalEdit.Text.Document

/-!
# Selected characters and lines

The editor's selections are pieces between gaps. Visual mode thinks in characters: the anchor and
the head are characters and both are selected, whichever comes first; the end of a line stands for
the line break. Visual line mode thinks in lines in the same way.

`charEndpoints` and `covering` convert between a selection and its two characters, `lineEndpoints`
and `lineCovering` between a selection and its two lines.
-/

namespace ModalEdit

namespace Document

variable (d : Document)

/-- The nearest position that names a character or the break behind a line. -/
def clampChar (p : Position) : Position :=
  let p := d.clamp p
  if p.line = d.lastLine ∧ d.lineLen p.line ≤ p.col then ⟨p.line, d.lineLen p.line - 1⟩ else p

/-- The character at which a selection begins when the cursor is at `p`: past the last character of
a line it is that character. -/
def entryChar (p : Position) : Position :=
  let q := d.clamp p
  let len := d.lineLen q.line
  if len ≤ q.col ∧ 0 < len then ⟨q.line, len - 1⟩ else d.clampChar q

/-- The anchor character and the head character of a selection. -/
def charEndpoints (sel : Selection) : Position × Position :=
  if sel.anchor < sel.active then (sel.anchor, d.stepBack sel.active)
  else if sel.active < sel.anchor then (d.stepBack sel.anchor, sel.active)
  else (sel.anchor, sel.active)

/-- The selection that covers two characters, its moving end on the side of the head. -/
def covering (anchor head : Position) : Selection :=
  if anchor ≤ head then ⟨anchor, d.stepForward head⟩ else ⟨d.stepForward anchor, head⟩

/-- The position behind a line and its break. -/
def behindLine (i : Nat) : Position := if i < d.lastLine then ⟨i + 1, 0⟩ else d.lineEnd i

/-- The selection that covers whole lines, its moving end on the side of the head. -/
def lineCovering (anchor head : Nat) : Selection :=
  if anchor ≤ head then ⟨⟨anchor, 0⟩, d.behindLine head⟩ else ⟨d.behindLine anchor, ⟨head, 0⟩⟩

end Document

/-- The last line of a piece that begins in line `first` and ends at `p`; a piece that ends at the
start of a line does not reach into it. -/
def lastLineOf (first : Nat) (p : Position) : Nat :=
  if p.col = 0 ∧ first < p.line then p.line - 1 else p.line

/-- The anchor line and the head line of a selection. -/
def Selection.lineEndpoints (sel : Selection) : Nat × Nat :=
  if sel.anchor < sel.active then (sel.anchor.line, lastLineOf sel.anchor.line sel.active)
  else if sel.active < sel.anchor then (lastLineOf sel.active.line sel.anchor, sel.active.line)
  else (sel.anchor.line, sel.anchor.line)

end ModalEdit
