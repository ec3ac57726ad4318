/-!
# Lines of a text

A text is a list of characters. It is cut into lines behind every line break, so that each line
but the last carries the break that ends it, and the last carries none. A carriage return and
the line feed after it are one break.

`flatten_splitLines` says that no character is lost or moved by the cut.
-/

namespace ModalEdit

/-- The characters of a document, of a register or of an edit. -/
abbrev Text := List Char

/-- A character that ends a line. -/
def isLineBreak (c : Char) : Bool :=
  c == '\n' || c == '\r' || c == '\x0b' || c == '\x0c' || c == '\u0085' || c == '\u2028' ||
    c == '\u2029'

/-- Put a character in front of the first line. -/
def consFirst (c : Char) : List Text → List Text
  | [] => [[c]]
  | l :: ls => (c :: l) :: ls

/-- The lines of a text, each with the break that ends it. -/
def splitLines : Text → List Text
  | [] => [[]]
  | c :: cs =>
    if c = '\r' ∧ cs.head? = some '\n' then consFirst c (splitLines cs)
    else if isLineBreak c then [c] :: splitLines cs
    else consFirst c (splitLines cs)

/-- A line without the line feed that ends it. Any other break stays part of the line. -/
def dropBreak (l : Text) : Text := if l.getLast? = some '\n' then l.dropLast else l

theorem flatten_consFirst (c : Char) (ls : List Text) :
    (consFirst c ls).flatten = c :: ls.flatten := by
  cases ls <;> simp [consFirst]

theorem flatten_splitLines (t : Text) : (splitLines t).flatten = t := by
  induction t with
  | nil => rfl
  | cons c cs ih => simp only [splitLines]; split <;> (try split) <;> simp [flatten_consFirst, ih]

theorem splitLines_ne_nil (t : Text) : splitLines t ≠ [] := by
  cases t with
  | nil => simp [splitLines]
  | cons c cs =>
    simp only [splitLines]
    split <;> (try split) <;> cases splitLines cs <;> simp [consFirst]

theorem length_dropBreak_le (l : Text) : (dropBreak l).length ≤ l.length := by
  unfold dropBreak; split <;> simp

end ModalEdit
