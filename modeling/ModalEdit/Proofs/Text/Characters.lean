import ModalEdit.Proofs.Text.Rebuild

/-!
# Where characters stand

The character with an offset stands in the line of that offset's position, at its column
(`exists_line?_positionAt`). A line feed is the last of its line, and every other character stands
before the end of its line (`col_positionAt_lt`, `col_positionAt_add_one`). Behind a character that
ends no line the line goes on (`positionAt_add_one`).

After a batch of edits these say where the text of an edit stands (`getElem?_startOf?`).
-/

namespace ModalEdit.Document

variable {d : Document} {o : Nat} {c : Char}

/-- The lines before a line, the line and what follows make up the text. -/
theorem exists_text_eq {i : Nat} {l : Text} (h : d.line? i = some l) :
    ∃ front back, d.text = front ++ l ++ back ∧ front.length = d.lineStart i := by
  refine ⟨(d.lines.take i).flatten, (d.lines.drop (i + 1)).flatten, ?_, rfl⟩
  obtain ⟨hi, hl⟩ := List.getElem?_eq_some_iff.1 h
  rw [← d.flatten_lines]
  conv_lhs => rw [← List.take_append_drop i d.lines, List.drop_eq_getElem_cons hi, hl]
  simp

/-- The character with an offset stands in the line of its position, at the column. -/
theorem exists_line?_positionAt (h : d.text[o]? = some c) :
    ∃ l, d.line? (d.positionAt o).line = some l ∧ l[(d.positionAt o).col]? = some c := by
  have ho : o < d.size := (List.getElem?_eq_some_iff.1 h).1
  obtain ⟨hline, hsum, hinner, hcol⟩ := d.positionAt_spec o
  rw [Nat.min_eq_left (Nat.le_of_lt ho)] at hsum
  obtain ⟨l, hl⟩ : ∃ l, d.line? (d.positionAt o).line = some l :=
    ⟨_, List.getElem?_eq_getElem hline⟩
  have hwidth : d.width (d.positionAt o).line = l.length := by rw [width, hl, Option.getD_some]
  have hcol : (d.positionAt o).col < l.length := by
    rcases Nat.lt_or_eq_of_le (Nat.le_of_lt_succ (lastLine_add_one ▸ hline)) with hlt | heq
    · exact hwidth ▸ hinner hlt
    · -- In the last line only the end of the text has no character.
      have hend := d.lineStart_lastLine
      rw [heq] at hsum hwidth
      rw [← width_lastLine] at hend
      omega
  obtain ⟨front, back, htext, hfront⟩ := exists_text_eq hl
  refine ⟨l, hl, ?_⟩
  rw [htext, ← hsum, ← hfront, List.append_assoc, List.getElem?_append_right (Nat.le_add_right _ _),
    Nat.add_sub_cancel_left, List.getElem?_append_left hcol] at h
  exact h

/-- A character of a line, by its offset. -/
theorem charAtOffset?_of_content {i k : Nat} (hi : i < d.lineCount)
    (h : (d.content i)[k]? = some c) : d.charAtOffset? (d.lineStart i + k) = some c := by
  have hl : d.line? i = some d.lines[i] := List.getElem?_eq_getElem hi
  obtain ⟨front, back, htext, hfront⟩ := exists_text_eq hl
  have hchar : d.lines[i][k]? = some c := by
    rw [content, hl, Option.getD_some, dropBreak] at h
    split at h
    · rw [List.getElem?_dropLast] at h
      split at h
      · exact h
      · cases h
    · exact h
  have hk := (List.getElem?_eq_some_iff.1 hchar).1
  rw [charAtOffset?, htext, ← hfront, List.append_assoc,
    List.getElem?_append_right (Nat.le_add_right _ _), Nat.add_sub_cancel_left,
    List.getElem?_append_left hk, hchar]

/-- A character other than a line feed stands before the end of its line. -/
theorem col_positionAt_lt (h : d.text[o]? = some c) (hc : c ≠ '\n') :
    (d.positionAt o).col < d.lineLen (d.positionAt o).line := by
  obtain ⟨l, hl, hchar⟩ := exists_line?_positionAt h
  have hcol := (List.getElem?_eq_some_iff.1 hchar).1
  rw [lineLen, content, hl, Option.getD_some, dropBreak]
  split
  · rename_i hlast
    rw [List.length_dropLast]
    refine Nat.lt_of_le_of_ne (by omega) fun heq => hc ?_
    rw [heq, ← List.getLast?_eq_getElem?, hlast] at hchar
    exact (Option.some.inj hchar).symm
  · exact hcol

/-- Behind a character that does not end its line the line goes on. -/
theorem positionAt_add_one (h : d.text[o]? = some c) (hc : ¬ isLineBreak c) :
    d.positionAt (o + 1) = ⟨(d.positionAt o).line, (d.positionAt o).col + 1⟩ := by
  have ho : o < d.size := (List.getElem?_eq_some_iff.1 h).1
  obtain ⟨l, hl, hchar⟩ := exists_line?_positionAt h
  obtain ⟨hline, hsum, -, -⟩ := d.positionAt_spec o
  obtain ⟨hline', hsum', -, -⟩ := d.positionAt_spec (o + 1)
  rw [Nat.min_eq_left (Nat.le_of_lt ho)] at hsum
  rw [Nat.min_eq_left ho] at hsum'
  have hsame : (d.positionAt (o + 1)).line = (d.positionAt o).line := by
    have hle : (d.positionAt o).line ≤ (d.positionAt (o + 1)).line := by
      rcases d.positionAt_mono (Nat.le_add_right o 1) with hlt | ⟨heq, -⟩
      · exact Nat.le_of_lt hlt
      · exact Nat.le_of_eq heq
    refine (Nat.eq_or_lt_of_le hle).elim Eq.symm fun hlt => absurd ?_ hc
    -- The next line begins right behind the character, so that it is the last of its line.
    have hnext := lineStart_mono (d := d) hlt
    rw [Nat.succ_eq_add_one, lineStart_succ, width, hl, Option.getD_some] at hnext
    have hcol := (List.getElem?_eq_some_iff.1 hchar).1
    have hlast : (d.positionAt o).line < d.lastLine := by
      have := d.lastLine_add_one
      omega
    obtain ⟨l', hl', hended⟩ := exists_line?_of_lt hlast
    cases hl.symm.trans hended
    obtain ⟨c', hc', hbreak⟩ := getLast?_of_mem_dropLast_splitLines hl'
    rw [List.getLast?_eq_getElem?, show l.length - 1 = (d.positionAt o).col by omega, hchar] at hc'
    exact Option.some.inj hc' ▸ hbreak
  rw [Position.ext_iff']
  refine ⟨hsame, ?_⟩
  rw [hsame] at hsum'
  dsimp only
  omega

/-- Behind a line feed a line begins. -/
theorem col_positionAt_add_one (h : d.text[o]? = some '\n') : (d.positionAt (o + 1)).col = 0 := by
  have ho : o < d.size := (List.getElem?_eq_some_iff.1 h).1
  obtain ⟨l, hl, hchar⟩ := exists_line?_positionAt h
  obtain ⟨hcol, hget⟩ := List.getElem?_eq_some_iff.1 hchar
  have hmem : l ∈ splitLines d.text := d.lines_eq ▸ List.mem_of_getElem? hl
  -- The line feed ends its line, so that the next offset is where the next line starts.
  have hends : (d.positionAt o).col + 1 = l.length := by
    refine Nat.le_antisymm hcol (Nat.le_of_not_lt fun hlt => ?_)
    have hlt : (d.positionAt o).col < l.dropLast.length := by
      rw [List.length_dropLast]
      exact Nat.lt_sub_of_add_lt hlt
    refine not_mem_dropLast_of_mem_splitLines hmem (List.mem_of_getElem (h := hlt) ?_)
    rw [List.getElem_dropLast, hget]
  have hnext : d.lineStart ((d.positionAt o).line + 1) = o + 1 := by
    have hsum := (d.positionAt_spec o).2.1
    rw [Nat.min_eq_left (Nat.le_of_lt ho)] at hsum
    rw [lineStart_succ, width, hl, Option.getD_some]
    omega
  have hinner : (d.positionAt o).line < d.lastLine := by
    refine Nat.lt_of_le_of_ne (inBounds_positionAt o).line_le fun heq => ?_
    rw [heq, line?_lastLine] at hl
    cases hl
    exact not_isLineBreak_of_mem_getLast_splitLines (List.mem_of_getElem? hchar) rfl
  obtain ⟨-, hsum, hrest, -⟩ := d.positionAt_spec (o + 1)
  rw [Nat.min_eq_left ho] at hsum
  by_cases hline : (d.positionAt o).line < (d.positionAt (o + 1)).line
  · have := lineStart_mono (d := d) hline
    rw [Nat.succ_eq_add_one] at this
    omega
  · -- An earlier line ends before the offset.
    have hcol := hrest (by omega)
    have := lineStart_mono (d := d) (Nat.succ_le_succ (Nat.le_of_not_lt hline))
    rw [Nat.succ_eq_add_one, lineStart_succ, Nat.succ_eq_add_one] at this
    omega

/-- Where an edit that was made has its place, the new text begins with the text of the edit. -/
theorem getElem?_startOf? {edits : List Edit} {after : Document} {plan : Plan}
    (hfits : ∀ e ∈ edits, d.Fits e.range) (hedit : d.edit edits = .ok (after, plan)) {i : Nat}
    {e : Edit} (hi : edits[i]? = some e) (hc : e.text = [c]) :
    ∃ o, plan.startOf? i = some o ∧ plan.endOf? i = some (o + 1) ∧ after.text[o]? = some c := by
  obtain ⟨hplan, -⟩ := edit_eq_ok_iff.1 hedit
  obtain ⟨f, o, hf, hmem, hfind⟩ := exists_placed_of_plan hplan hi
  have htext : f.text = [c] := by rw [hf, hc]
  obtain ⟨front, back, hparts, hfront⟩ :=
    exists_parts_of_mem_placed [] (inSequence_of_plan hfits hplan) rfl hmem
  refine ⟨o, by rw [Plan.startOf?, hfind, Option.map_some], ?_, ?_⟩
  · rw [Plan.endOf?, hfind, Option.map_some, htext, List.length_singleton]
  · rw [List.nil_append] at hparts
    rw [text_of_edit hfits hedit, hparts, htext, ← hfront, List.append_assoc,
      List.getElem?_append_right (Nat.le_refl _), Nat.sub_self]
    rfl

end ModalEdit.Document
