import ModalEdit.Proofs.Text.Coordinates
import ModalEdit.Selection.Extent

/-!
# Selections in bounds

The conversions between a selection and its characters or lines stay in bounds.
-/

namespace ModalEdit

/-- Both ends of the selection are in bounds. -/
def Document.Holds (d : Document) (sel : Selection) : Prop :=
  d.InBounds sel.anchor ∧ d.InBounds sel.active

/-- The selection covers whole lines, as in visual line mode. -/
def Document.CoversLines (d : Document) (sel : Selection) : Prop :=
  ∃ anchor head, anchor < d.lineCount ∧ head < d.lineCount ∧ sel = d.lineCovering anchor head

namespace Document

variable {d : Document}

/-! ### Characters -/

theorem inBounds_stepBack {p : Position} (h : d.InBounds p) : d.InBounds (d.stepBack p) := by
  have hline := h.1
  have hcol := h.2
  unfold stepBack
  split
  · exact ⟨hline, by dsimp only; omega⟩
  · split
    · exact inBounds_lineEnd (by omega)
    · exact h

theorem stepBack_le (p : Position) : d.stepBack p ≤ p := by
  unfold stepBack
  split
  · exact .inr ⟨rfl, Nat.sub_le _ _⟩
  · split
    · exact .inl (Nat.sub_one_lt (Nat.ne_of_gt ‹_›))
    · exact Position.le_refl p

/-- In a text whose only breaks are line feeds one step back is one character. -/
theorem LineFeedsOnly.offsetOf_stepBack (hd : d.LineFeedsOnly) {p : Position}
    (hp : d.InBounds p) : d.offsetOf (d.stepBack p) = d.offsetOf p - 1 := by
  rw [offsetOf_of_inBounds (inBounds_stepBack hp), offsetOf_of_inBounds hp]
  unfold stepBack
  split
  · dsimp only
    omega
  · split
    · have hstart := hd.lineStart_eq_add_one ‹0 < p.line› hp.line_le
      rw [offsetOf_of_inBounds (inBounds_lineEnd (by have := hp.1; omega))] at hstart
      omega
    · -- the first position of the text
      have hline : p.line = 0 := by omega
      rw [hline, lineStart_zero]
      omega

theorem inBounds_stepForward {p : Position} (h : d.InBounds p) : d.InBounds (d.stepForward p) := by
  have hline := h.1
  unfold stepForward
  split
  · exact ⟨hline, by dsimp only; omega⟩
  · split
    · exact inBounds_lineStart (lt_lineCount (by omega))
    · exact inBounds_lineEnd hline

theorem inBounds_clampChar (p : Position) : d.InBounds (d.clampChar p) := by
  have h := d.inBounds_clamp p
  simp only [clampChar]
  split
  · exact ⟨h.1, Nat.sub_le _ _⟩
  · exact h

theorem inBounds_entryChar (p : Position) : d.InBounds (d.entryChar p) := by
  simp only [entryChar]
  split
  · exact ⟨d.clamp_line_lt p, Nat.sub_le _ _⟩
  · exact d.inBounds_clampChar _

theorem inBounds_charEndpoints {sel : Selection} (h : d.Holds sel) :
    d.InBounds (d.charEndpoints sel).1 ∧ d.InBounds (d.charEndpoints sel).2 := by
  unfold charEndpoints
  split
  · exact ⟨h.1, inBounds_stepBack h.2⟩
  · split
    · exact ⟨inBounds_stepBack h.1, h.2⟩
    · exact h

theorem holds_covering {anchor head : Position} (ha : d.InBounds anchor) (hh : d.InBounds head) :
    d.Holds (d.covering anchor head) := by
  unfold covering
  split
  · exact ⟨ha, inBounds_stepForward hh⟩
  · exact ⟨inBounds_stepForward ha, hh⟩

/-! ### Lines -/

theorem inBounds_behindLine {i : Nat} (h : i < d.lineCount) : d.InBounds (d.behindLine i) := by
  unfold behindLine
  split
  · exact inBounds_lineStart (lt_lineCount (by omega))
  · exact inBounds_lineEnd h

theorem CoversLines.holds {sel : Selection} (h : d.CoversLines sel) : d.Holds sel := by
  obtain ⟨a, h, ha, hh, rfl⟩ := h
  unfold lineCovering
  split
  · exact ⟨inBounds_lineStart ha, inBounds_behindLine hh⟩
  · exact ⟨inBounds_behindLine ha, inBounds_lineStart hh⟩

theorem lastLineOf_le (first : Nat) (p : Position) : lastLineOf first p ≤ p.line := by
  unfold lastLineOf
  split <;> omega

theorem lineEndpoints_lt {sel : Selection} (h : d.Holds sel) :
    sel.lineEndpoints.1 < d.lineCount ∧ sel.lineEndpoints.2 < d.lineCount := by
  have ha := h.1.1
  have hh := h.2.1
  have := lastLineOf_le sel.anchor.line sel.active
  have := lastLineOf_le sel.active.line sel.anchor
  unfold Selection.lineEndpoints
  split
  · exact ⟨ha, by dsimp only; omega⟩
  · split
    · exact ⟨by dsimp only; omega, hh⟩
    · exact ⟨ha, ha⟩

end Document

end ModalEdit
