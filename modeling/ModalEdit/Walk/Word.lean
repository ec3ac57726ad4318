import ModalEdit.Text.Run

/-!
# Steps by word and by paragraph

Word walks look for a stop in the rest of the cursor's line and then line by line. An empty line
is a stop of its own, except for `wordEndForward`.

A paragraph walk goes to the blank line that ends the paragraph in the direction of the walk.
-/

namespace ModalEdit.Document

variable (d : Document)

/-- The lines after line `i`, nearest first. -/
def linesAfter (i : Nat) : List Nat := List.range' (i + 1) (d.lineCount - (i + 1))

/-- The lines before line `i`, nearest first. -/
def linesBefore (i : Nat) : List Nat := (List.range i).reverse

/-- The start of the next word, or the end of the document. -/
def wordForward (kind : WordKind) (p : Position) : Position :=
  let p := d.clamp p
  match (d.words kind p.line).find? fun r => p.col < r.start with
  | some r => ⟨p.line, r.start⟩
  | none =>
    let stop := (d.linesAfter p.line).findSome? fun i =>
      if d.lineLen i = 0 then some (⟨i, 0⟩ : Position)
      else (d.words kind i).head?.map fun r => ⟨i, r.start⟩
    stop.getD (max d.endPosition p)

/-- The start of the word under or before the cursor, or the start of the document. -/
def wordBackward (kind : WordKind) (p : Position) : Position :=
  let p := d.clamp p
  match (d.words kind p.line).reverse.find? fun r => r.start < p.col with
  | some r => ⟨p.line, r.start⟩
  | none =>
    let stop := (linesBefore p.line).findSome? fun i =>
      if d.lineLen i = 0 then some (⟨i, 0⟩ : Position)
      else (d.words kind i).getLast?.map fun r => ⟨i, r.start⟩
    stop.getD .origin

/-- The last character of the word under or after the cursor, or the place where the walk began. -/
def wordEndForward (kind : WordKind) (p : Position) : Position :=
  let p := d.clamp p
  match (d.words kind p.line).find? fun r => p.col < r.stop - 1 with
  | some r => ⟨p.line, r.stop - 1⟩
  | none =>
    let stop := (d.linesAfter p.line).findSome? fun i =>
      (d.words kind i).head?.map fun r => (⟨i, r.stop - 1⟩ : Position)
    stop.getD p

/-- The last character of the word before the cursor, or the start of the document. -/
def wordEndBackward (kind : WordKind) (p : Position) : Position :=
  let p := d.clamp p
  match (d.words kind p.line).reverse.find? fun r => r.stop - 1 < p.col with
  | some r => ⟨p.line, r.stop - 1⟩
  | none =>
    let stop := (linesBefore p.line).findSome? fun i =>
      if d.lineLen i = 0 then some (⟨i, 0⟩ : Position)
      else (d.words kind i).getLast?.map fun r => ⟨i, r.stop - 1⟩
    stop.getD .origin

/-- The next blank line behind the paragraph, or the end of the document. -/
def paragraphForward (p : Position) : Position :=
  let ahead := d.blankLines.drop (d.clamp p).line
  let rest := (ahead.dropWhile id).dropWhile (!·)
  if rest.isEmpty then d.endPosition else ⟨d.lineCount - rest.length, 0⟩

/-- The blank line before the paragraph, or the start of the document. -/
def paragraphBackward (p : Position) : Position :=
  let behind := (d.blankLines.take ((d.clamp p).line + 1)).reverse
  let rest := (behind.dropWhile id).dropWhile (!·)
  ⟨rest.length - 1, 0⟩

end ModalEdit.Document
