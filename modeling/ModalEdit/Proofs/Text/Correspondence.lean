import Mathlib.Data.Set.Function
import ModalEdit.Proofs.Text.Coordinates

/-!
# When positions and offsets say the same

Offsets always lead to positions and back. The other way round a position can be lost: where a line
ends in a break that is part of its content, the end of the line and the start of the next have one
offset.

In all other documents positions and offsets correspond (`Document.Corresponds`): the positions in
bounds have the offsets up to the end of the text, each of them one, in the same order. These are
exactly the documents whose breaks are plain (`Document.corresponds_iff_plainBreaks`), and in
particular those with no breaks but line feeds (`Document.corresponds_of_lineFeedsOnly`).
-/

namespace ModalEdit.Document

variable {d : Document}

/-! ### Lines that are apart -/

theorem mem_dropLast_splitLines_iff {l : Text} :
    l ∈ (splitLines d.text).dropLast ↔ ∃ i < d.lastLine, d.line? i = some l := by
  constructor
  · intro h
    obtain ⟨i, hi, rfl⟩ := List.mem_iff_getElem.1 h
    rw [List.length_dropLast, ← d.lines_eq] at hi
    refine ⟨i, hi, ?_⟩
    rw [List.getElem_dropLast, line?, ← List.getElem?_eq_getElem, d.lines_eq]
  · rintro ⟨i, hi, hline⟩
    obtain ⟨k, hk, hline'⟩ := exists_line?_of_lt hi
    rw [hline, Option.some.injEq] at hline'
    exact hline' ▸ hk

/-- A line is longer than its content if and only if a line feed ends it. -/
theorem width_eq_add_one_iff {i : Nat} {l : Text} (h : d.line? i = some l) :
    d.width i = d.lineLen i + 1 ↔ l.getLast? = some '\n' := by
  simp only [width, lineLen, content, h, Option.getD_some, dropBreak]
  split
  · rename_i hlast
    have : l ≠ [] := by
      rintro rfl
      cases hlast
    have := List.length_pos_iff.2 this
    rw [List.length_dropLast]
    exact iff_of_true (by omega) hlast
  · rename_i hlast
    exact iff_of_false (by omega) hlast

/-- Lines are apart in the documents whose breaks are plain, and in no others. -/
theorem linesApart_iff_plainBreaks : d.LinesApart ↔ PlainBreaks d.text := by
  rw [plainBreaks_iff_getLast?, List.forall_mem_map]
  constructor
  · intro h l hl
    obtain ⟨i, hi, hline⟩ := mem_dropLast_splitLines_iff.1 hl
    exact (width_eq_add_one_iff hline).1 (h i hi)
  · intro h i hi
    obtain ⟨l, hl, hline⟩ := exists_line?_of_lt hi
    exact (width_eq_add_one_iff hline).2 (h l hl)

/-- If lines are not apart, the end of one has the offset of the start of the next. -/
theorem exists_offsetOf_eq_of_not_linesApart (h : ¬ d.LinesApart) :
    ∃ i < d.lastLine, d.offsetOf (d.lineEnd i) = d.offsetOf ⟨i + 1, 0⟩ := by
  simp only [LinesApart, not_forall] at h
  obtain ⟨i, hi, hwidth⟩ := h
  refine ⟨i, hi, ?_⟩
  have := lineLen_le_width (d := d) i
  have := width_le (d := d) i
  rw [offsetOf_of_inBounds (inBounds_lineEnd (lt_lineCount (Nat.le_of_lt hi))),
    offsetOf_lineStart hi, lineStart_succ, lineEnd]
  dsimp only
  omega

/-! ### The correspondence -/

variable (d) in
/-- Positions in bounds and offsets up to the end of the text correspond, in order, and the position
of the offset of any other position is the nearest one in bounds. -/
structure Corresponds : Prop where
  /-- Offsets follow the order of positions strictly. -/
  lt_iff : ∀ p q, d.InBounds p → d.InBounds q → (d.offsetOf p < d.offsetOf q ↔ p < q)
  /-- Every offset is that of exactly one position. -/
  bijOn : Set.BijOn d.offsetOf {p | d.InBounds p} ({o | o ≤ d.size})
  /-- This position is found, from its offset, and it has this offset. -/
  invOn : Set.InvOn d.positionAt d.offsetOf {p | d.InBounds p} ({o | o ≤ d.size})
  /-- Other positions are first moved to the nearest one in bounds. -/
  positionAt_offsetOf : ∀ p, d.positionAt (d.offsetOf p) = d.clamp p

theorem LinesApart.corresponds (hd : d.LinesApart) : d.Corresponds := by
  have hinv : Set.InvOn d.positionAt d.offsetOf {p | d.InBounds p} ({o | o ≤ d.size}) :=
    ⟨fun p hp => hd.positionAt_offsetOf hp, fun o ho => d.offsetOf_positionAt ho⟩
  refine ⟨fun p q hp hq => hd.offsetOf_lt_iff hp hq, ?_, hinv, fun p => ?_⟩
  · exact hinv.bijOn (fun p _ => d.offsetOf_le_size p) fun o _ => d.inBounds_positionAt o
  · rw [← offsetOf_clamp, hd.positionAt_offsetOf (d.inBounds_clamp p)]

/-- **Positions and offsets correspond if and only if all breaks are plain.** -/
theorem corresponds_iff_plainBreaks : d.Corresponds ↔ PlainBreaks d.text := by
  rw [← linesApart_iff_plainBreaks]
  refine ⟨fun h => ?_, LinesApart.corresponds⟩
  by_contra hd
  obtain ⟨i, hi, heq⟩ := exists_offsetOf_eq_of_not_linesApart hd
  have hend : d.InBounds (d.lineEnd i) := inBounds_lineEnd (lt_lineCount (Nat.le_of_lt hi))
  have hlt := (h.lt_iff _ _ hend (inBounds_lineStart (lt_lineCount hi))).2
    (.inl (Nat.lt_succ_self i))
  exact Nat.ne_of_lt hlt heq

/-- **Positions and offsets.** In a document whose only breaks are line feeds they correspond, and
more generally in those whose breaks are plain and in no others. Offsets lead to positions and back
in every document. -/
theorem corresponds_of_lineFeedsOnly (d : Document) :
    (d.LineFeedsOnly → d.Corresponds) ∧ (d.Corresponds ↔ PlainBreaks d.text) ∧
      ∀ o ≤ d.size, d.offsetOf (d.positionAt o) = o :=
  ⟨fun hd => hd.linesApart.corresponds, corresponds_iff_plainBreaks,
    fun _ ho => d.offsetOf_positionAt ho⟩

/-- An empty line and a line feed at the end. -/
theorem corresponds_of_lineFeedsOnly_emptyLine :
    let d := ofText "ab\n\ncde\n".toList
    d.LineFeedsOnly ∧ 8 ≤ d.size ∧ d.Corresponds ∧ d.offsetOf (d.positionAt 8) = 8 ∧
      d.positionAt 8 = ⟨3, 0⟩ ∧ d.positionAt (d.offsetOf ⟨2, 9⟩) = ⟨2, 3⟩ := by
  intro d
  have hd : d.LineFeedsOnly := by decide
  have hsize : 8 ≤ d.size := by decide
  obtain ⟨hcorresponds, -, hback⟩ := corresponds_of_lineFeedsOnly d
  exact ⟨hd, hsize, hcorresponds hd, hback 8 hsize, by decide, by decide⟩

end ModalEdit.Document
