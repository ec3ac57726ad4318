import ModalEdit.Proofs.Text.Coordinates
import ModalEdit.Span.TextObject

/-!
# Walks and text objects past the end of a line

A walk up or down keeps its column, so a position may stand past the end of its line. To all other
walks and to all text objects that position is the end of the line: they first move it into the
document (`Walk.take?_clamp`, `TextObject.compute_clamp`). An object walked up or down needs only
the line, on which the two positions agree.
-/

namespace ModalEdit

variable {d : Document} {p : Position}

namespace Document

/-- A position on an existing line is moved within its line. -/
theorem line_clamp (h : p.line ≤ d.lastLine) : (d.clamp p).line = p.line := Nat.min_eq_left h

theorem find?_clamp (f : Find) (again : Bool) :
    d.find? f again (d.clamp p) = d.find? f again p := by
  simp only [find?, clamp_clamp]

theorem bracketMatch?_clamp (pairs : List BracketPair) :
    d.bracketMatch? pairs (d.clamp p) = d.bracketMatch? pairs p := by
  simp only [bracketMatch?, clamp_clamp]

theorem wordForward_clamp (kind : WordKind) :
    d.wordForward kind (d.clamp p) = d.wordForward kind p := by
  simp only [wordForward, clamp_clamp]

theorem wordBackward_clamp (kind : WordKind) :
    d.wordBackward kind (d.clamp p) = d.wordBackward kind p := by
  simp only [wordBackward, clamp_clamp]

theorem wordEndForward_clamp (kind : WordKind) :
    d.wordEndForward kind (d.clamp p) = d.wordEndForward kind p := by
  simp only [wordEndForward, clamp_clamp]

theorem wordEndBackward_clamp (kind : WordKind) :
    d.wordEndBackward kind (d.clamp p) = d.wordEndBackward kind p := by
  simp only [wordEndBackward, clamp_clamp]

end Document

namespace Walk

/-- **A walk that does not keep the column** starts where the position is moved into the
document. -/
theorem take?_clamp {w : Walk} (h : w.keepsColumn = false) (s : Surroundings) (key : Option Key) :
    w.take? d s key (d.clamp p) = w.take? d s key p := by
  cases w with
  | up | down => cases h
  | left | right | lineStart | firstNonBlank | lineEnd | documentStart | documentEnd
  | paragraphForward | paragraphBackward =>
    simp only [take?, Document.left, Document.right, Document.toLineStart, Document.toLineEnd,
      Document.toFirstNonBlank, Document.paragraphForward, Document.paragraphBackward,
      Document.clamp_clamp]
  | wordForward kind => simp only [take?, Document.wordForward_clamp]
  | wordBackward kind => simp only [take?, Document.wordBackward_clamp]
  | wordEndForward kind => simp only [take?, Document.wordEndForward_clamp]
  | wordEndBackward kind => simp only [take?, Document.wordEndBackward_clamp]
  | find direction distance => simp only [take?, Document.find?_clamp]
  | findAgain reverse => simp only [take?, Document.find?_clamp]
  | bracket => simp only [take?, Document.bracketMatch?_clamp]

/-- A walk that keeps the column leads from both positions to the same line. -/
theorem exists_take?_of_keepsColumn {w : Walk} (h : w.keepsColumn = true)
    (hline : p.line ≤ d.lastLine) (s : Surroundings) (key : Option Key) :
    ∃ a a', w.take? d s key p = some a ∧ w.take? d s key (d.clamp p) = some a' ∧
      a'.target.line = a.target.line ∧ a'.find = a.find := by
  have hclamp := Document.line_clamp hline
  cases w with
  | up =>
    refine ⟨_, _, rfl, rfl, ?_, rfl⟩
    simp only [Position.up, hclamp]
    split <;> simp [hclamp]
  | down =>
    refine ⟨_, _, rfl, rfl, ?_, rfl⟩
    simp only [Document.down, hclamp]
    split <;> simp [hclamp]
  | _ => cases h

theorem isLinewise_of_keepsColumn {w : Walk} (h : w.keepsColumn = true) : w.isLinewise = true := by
  cases w with
  | up | down => rfl
  | _ => cases h

theorem span_clamp (w : Walk) (u : Purpose) (a : Arrival) :
    w.span d u (d.clamp p) a = w.span d u p a := by
  simp only [span, Document.clamp_clamp]

/-- To an operator a walk finds the same from both positions. -/
theorem map_span_clamp (w : Walk) (hline : p.line ≤ d.lastLine) (u : Purpose) (s : Surroundings)
    (key : Option Key) :
    ((w.take? d s key (d.clamp p)).map fun a => ObjectRange.mk (w.span d u (d.clamp p) a) a.find) =
      (w.take? d s key p).map fun a => ⟨w.span d u p a, a.find⟩ := by
  by_cases hcolumn : w.keepsColumn = true
  · obtain ⟨a, a', ha, ha', htarget, hfind⟩ := exists_take?_of_keepsColumn hcolumn hline s key
    have hlinewise := isLinewise_of_keepsColumn hcolumn
    rw [ha, ha', Option.map_some, Option.map_some, span_clamp]
    simp only [span, hlinewise, ↓reduceIte, htarget, hfind]
  · simp only [take?_clamp (Bool.eq_false_iff.2 hcolumn), span_clamp]

end Walk

/-- A structure is looked for where the position is moved into the document. -/
theorem Structure.span_clamp (k : Structure) (u : Purpose) (around : Bool) :
    k.span d u around (d.clamp p) = k.span d u around p := by
  cases k with
  | word kind => simp only [span, Document.wordSpan, Document.clamp_clamp]
  | pair b => simp only [span, Document.pairSpan, Document.offsetOf_clamp]
  | quote c => simp only [span, Document.quoteSpan, Document.clamp_clamp]
  | tag => simp only [span, Document.tagSpan, Document.offsetOf_clamp]
  | paragraph => simp only [span, Document.paragraphLines, Document.clamp_clamp]

/-- **To a text object a position past the end of its line is the end of the line.** -/
theorem TextObject.compute_clamp (o : TextObject) (hline : p.line ≤ d.lastLine) (u : Purpose)
    (keys : List Key) : o.compute d u (d.clamp p) keys = o.compute d u p keys := by
  cases o with
  | structural name pattern kind around => simp only [compute, Structure.span_clamp]
  | walked m => simp only [compute, Walk.map_span_clamp m.walk hline]
  | line pattern withBreak => simp only [compute, Document.clamp_clamp]

namespace Motion

variable {m : Motion} {s : Surroundings} {keys : List Key}

theorem compute_clamp (h : m.walk.keepsColumn = false) :
    m.compute d s (d.clamp p) keys = m.compute d s p keys := by
  simp only [compute, Walk.take?_clamp h]

/-- Whether a motion needs more keys, and whether it leads anywhere, is the same at both
positions. -/
theorem compute_clamp_cases (m : Motion) (hline : p.line ≤ d.lastLine) (s : Surroundings)
    (keys : List Key) :
    (m.compute d s (d.clamp p) keys).isPartly = (m.compute d s p keys).isPartly ∧
      (m.compute d s (d.clamp p) keys).result?.isSome = (m.compute d s p keys).result?.isSome := by
  by_cases hcolumn : m.walk.keepsColumn = true
  · simp only [compute]
    cases m.pattern.parse keys with
    | full captured rest =>
      obtain ⟨a, a', ha, ha', -⟩ :=
        m.walk.exists_take?_of_keepsColumn hcolumn hline s (captured.map (·.2))
      simp only [Found.ofMatch, ha, ha', Found.isPartly, Found.result?, Option.isSome_some,
        and_self]
    | partly => exact ⟨rfl, rfl⟩
    | none => exact ⟨rfl, rfl⟩
  · rw [compute_clamp (Bool.eq_false_iff.2 hcolumn)]
    exact ⟨rfl, rfl⟩

end Motion

end ModalEdit
