import ModalEdit.Proofs.Text.Lines
import ModalEdit.Text.Document

/-!
# Positions and offsets

Offsets follow the order of positions (`offsetOf_mono`), and every offset has a position that names
an existing line and a gap in it (`inBounds_positionAt`), from which `offsetOf` leads back
(`offsetOf_positionAt`).

Where a line ends in a break other than a line feed its end and the start of the next line share an
offset. Where no line does, lines are apart (`LinesApart`) and different positions have different
offsets (`LinesApart.offsetOf_lt_iff`).
-/

namespace ModalEdit.Document

variable (d : Document)

/-- Number of characters of a line with its break. -/
def width (i : Nat) : Nat := ((d.line? i).getD []).length

/-- The only breaks of the text are line feeds. -/
def LineFeedsOnly : Prop := ∀ c ∈ d.text, isLineBreak c → c = '\n'

instance : Decidable d.LineFeedsOnly :=
  List.decidableBAll (fun c => isLineBreak c → c = '\n') d.text

variable {d}

/-! ### Lines -/

theorem lastLine_add_one : d.lastLine + 1 = d.lineCount := by
  have := d.lineCount_pos
  unfold lastLine; omega

theorem lt_lineCount {i : Nat} (h : i ≤ d.lastLine) : i < d.lineCount :=
  Nat.lt_of_le_of_lt h d.lastLine_lt

theorem lineLen_le_width (i : Nat) : d.lineLen i ≤ d.width i := length_dropBreak_le _

theorem width_le (i : Nat) : d.width i ≤ d.lineLen i + 1 := length_le_dropBreak _

theorem line?_lastLine :
    d.line? d.lastLine = some ((splitLines d.text).getLast (splitLines_ne_nil _)) := by
  rw [line?, lastLine, lineCount, d.lines_eq, ← List.getLast?_eq_getElem?,
    List.getLast?_eq_some_getLast (splitLines_ne_nil _)]

/-- The last line has no break. -/
theorem width_lastLine : d.width d.lastLine = d.lineLen d.lastLine := by
  simp only [width, lineLen, content, line?_lastLine, Option.getD_some,
    dropBreak_getLast_splitLines]

theorem exists_line?_of_lt {i : Nat} (h : i < d.lastLine) :
    ∃ l ∈ (splitLines d.text).dropLast, d.line? i = some l := by
  have hlen : i < (splitLines d.text).dropLast.length := by
    simpa [lastLine, lineCount, d.lines_eq] using h
  refine ⟨_, List.getElem_mem hlen, ?_⟩
  rw [List.getElem_dropLast, line?, d.lines_eq, List.getElem?_eq_getElem]

theorem LineFeedsOnly.width_eq (hd : d.LineFeedsOnly) {i : Nat} (h : i < d.lastLine) :
    d.width i = d.lineLen i + 1 := by
  obtain ⟨l, hl, hline⟩ := exists_line?_of_lt h
  have := length_dropBreak_add_one hd hl
  simp only [width, lineLen, content, hline, Option.getD_some]
  omega

/-! ### Offsets of lines -/

@[simp] theorem lineStart_zero : d.lineStart 0 = 0 := by simp [lineStart]

theorem lineStart_succ (i : Nat) : d.lineStart (i + 1) = d.lineStart i + d.width i := by
  rw [lineStart, lineStart, List.take_add_one, List.flatten_append, List.length_append, width,
    line?]
  cases d.lines[i]? <;> simp

theorem lineStart_mono {i j : Nat} (h : i ≤ j) : d.lineStart i ≤ d.lineStart j := by
  induction h with
  | refl => exact Nat.le_refl _
  | step _ ih => rw [lineStart_succ]; omega

theorem lineStart_lineCount : d.lineStart d.lineCount = d.size := by
  have h : d.lines.take d.lineCount = d.lines := List.take_of_length_le (Nat.le_refl _)
  rw [lineStart, h, flatten_lines, size]

theorem lineStart_add_lineLen_le {i j : Nat} (h : i < j) :
    d.lineStart i + d.lineLen i ≤ d.lineStart j := by
  have := lineStart_mono (d := d) h
  rw [lineStart_succ] at this
  have := lineLen_le_width (d := d) i
  omega

theorem lineStart_lastLine : d.lineStart d.lastLine + d.lineLen d.lastLine = d.size := by
  rw [← width_lastLine, ← lineStart_succ, lastLine_add_one, lineStart_lineCount]

/-! ### Positions in bounds -/

theorem InBounds.line_le {p : Position} (h : d.InBounds p) : p.line ≤ d.lastLine := by
  have := h.1
  have := d.lastLine_add_one
  omega

theorem inBounds_origin : d.InBounds .origin := ⟨d.lineCount_pos, Nat.zero_le _⟩

theorem inBounds_lineStart {i : Nat} (h : i < d.lineCount) : d.InBounds ⟨i, 0⟩ :=
  ⟨h, Nat.zero_le _⟩

theorem inBounds_lineEnd {i : Nat} (h : i < d.lineCount) : d.InBounds (d.lineEnd i) :=
  ⟨h, Nat.le_refl _⟩

theorem inBounds_endPosition : d.InBounds d.endPosition := inBounds_lineEnd d.lastLine_lt

theorem clamp_line_lt (p : Position) : (d.clamp p).line < d.lineCount := (d.inBounds_clamp p).1

@[simp] theorem clamp_clamp (p : Position) : d.clamp (d.clamp p) = d.clamp p :=
  d.clamp_of_inBounds (d.inBounds_clamp p)

@[simp] theorem offsetOf_clamp (p : Position) : d.offsetOf (d.clamp p) = d.offsetOf p := by
  simp only [offsetOf, clamp_clamp]

theorem offsetOf_of_inBounds {p : Position} (h : d.InBounds p) :
    d.offsetOf p = d.lineStart p.line + p.col := by
  simp only [offsetOf, d.clamp_of_inBounds h]

theorem offsetOf_lineStart {i : Nat} (h : i ≤ d.lastLine) : d.offsetOf ⟨i, 0⟩ = d.lineStart i :=
  offsetOf_of_inBounds (inBounds_lineStart (lt_lineCount h))

theorem offsetOf_lineEnd_lastLine : d.offsetOf (d.lineEnd d.lastLine) = d.size := by
  rw [offsetOf_of_inBounds (inBounds_lineEnd d.lastLine_lt), lineEnd, lineStart_lastLine]

theorem offsetOf_le_size (p : Position) : d.offsetOf p ≤ d.size := by
  rw [← offsetOf_clamp, offsetOf_of_inBounds (d.inBounds_clamp p)]
  have hcol := (d.inBounds_clamp p).2
  have hline := (d.inBounds_clamp p).line_le
  rw [← lineStart_lastLine]
  rcases Nat.lt_or_eq_of_le hline with h | h
  · have := lineStart_add_lineLen_le (d := d) h
    omega
  · rw [h] at hcol ⊢
    omega

/-- **Offsets follow the order of positions.** -/
theorem offsetOf_mono {p q : Position} (hp : d.InBounds p) (hq : d.InBounds q) (h : p ≤ q) :
    d.offsetOf p ≤ d.offsetOf q := by
  rw [offsetOf_of_inBounds hp, offsetOf_of_inBounds hq]
  rcases h with h | ⟨h, hc⟩
  · have := lineStart_add_lineLen_le (d := d) h
    have := hp.2
    omega
  · rw [h]
    omega

theorem le_endPosition {p : Position} (h : d.InBounds p) : p ≤ d.endPosition := by
  rcases Nat.lt_or_eq_of_le h.line_le with hl | hl
  · exact .inl hl
  · obtain ⟨i, c⟩ := p
    obtain rfl : i = d.lastLine := hl
    exact .inr ⟨rfl, h.2⟩

/-- The end of a line is not the start of the next: between them stands a character that is not part
of the line's content. -/
def LinesApart (d : Document) : Prop := ∀ i < d.lastLine, d.width i = d.lineLen i + 1

theorem LineFeedsOnly.linesApart (hd : d.LineFeedsOnly) : d.LinesApart := fun _ hi => hd.width_eq hi

/-- Where lines are apart, offsets follow positions strictly. -/
theorem LinesApart.offsetOf_lt (hd : d.LinesApart) {p q : Position} (hp : d.InBounds p)
    (hq : d.InBounds q) (h : p < q) : d.offsetOf p < d.offsetOf q := by
  rw [offsetOf_of_inBounds hp, offsetOf_of_inBounds hq]
  rcases h with h | ⟨h, hc⟩
  · have hw := hd p.line (Nat.lt_of_lt_of_le h hq.line_le)
    have := lineStart_mono (d := d) h
    rw [lineStart_succ] at this
    have := hp.2
    omega
  · rw [h]
    omega

theorem LinesApart.offsetOf_lt_iff (hd : d.LinesApart) {p q : Position} (hp : d.InBounds p)
    (hq : d.InBounds q) : d.offsetOf p < d.offsetOf q ↔ p < q := by
  refine ⟨fun h => ?_, hd.offsetOf_lt hp hq⟩
  rw [← Position.not_le]
  intro hqp
  have := offsetOf_mono hq hp hqp
  omega

theorem LinesApart.offsetOf_le_iff (hd : d.LinesApart) {p q : Position} (hp : d.InBounds p)
    (hq : d.InBounds q) : d.offsetOf p ≤ d.offsetOf q ↔ p ≤ q := by
  rw [← Nat.not_lt, hd.offsetOf_lt_iff hq hp, Position.not_lt]

/-- In a text whose only breaks are line feeds, offsets follow positions strictly. -/
theorem LineFeedsOnly.offsetOf_lt (hd : d.LineFeedsOnly) {p q : Position} (hp : d.InBounds p)
    (hq : d.InBounds q) (h : p < q) : d.offsetOf p < d.offsetOf q :=
  hd.linesApart.offsetOf_lt hp hq h

theorem LineFeedsOnly.offsetOf_lt_iff (hd : d.LineFeedsOnly) {p q : Position} (hp : d.InBounds p)
    (hq : d.InBounds q) : d.offsetOf p < d.offsetOf q ↔ p < q :=
  hd.linesApart.offsetOf_lt_iff hp hq

theorem LineFeedsOnly.offsetOf_le_iff (hd : d.LineFeedsOnly) {p q : Position} (hp : d.InBounds p)
    (hq : d.InBounds q) : d.offsetOf p ≤ d.offsetOf q ↔ p ≤ q :=
  hd.linesApart.offsetOf_le_iff hp hq

/-- In such a text a line begins one character behind the end of the line before. -/
theorem LineFeedsOnly.lineStart_eq_add_one (hd : d.LineFeedsOnly) {i : Nat} (hpos : 0 < i)
    (hi : i ≤ d.lastLine) : d.lineStart i = d.offsetOf (d.lineEnd (i - 1)) + 1 := by
  obtain ⟨i, rfl⟩ := Nat.exists_eq_add_one.2 hpos
  rw [Nat.add_sub_cancel, offsetOf_of_inBounds (inBounds_lineEnd (lt_lineCount (by omega))),
    lineStart_succ, hd.width_eq hi, lineEnd, Nat.add_assoc]

theorem LineFeedsOnly.lineStart_lt (hd : d.LineFeedsOnly) {i j : Nat} (h : i < j)
    (hj : j ≤ d.lastLine) : d.lineStart i < d.lineStart j := by
  have hmono := lineStart_mono (d := d) h
  rw [lineStart_succ, hd.width_eq (by omega)] at hmono
  omega

/-! ### Positions of offsets -/

theorem locate_spec {ls : List Text} (h : ls ≠ []) {o : Nat} (ho : o ≤ ls.flatten.length) :
    let p := locate ls o
    p.line < ls.length ∧ (ls.take p.line).flatten.length + p.col = o ∧
      (p.line + 1 < ls.length → p.col < (ls[p.line]?.getD []).length) ∧
      p.col ≤ (ls[p.line]?.getD []).length := by
  fun_induction locate ls o with
  | case1 => exact absurd rfl h
  | case2 => simpa using ho
  | case3 => simp; omega
  | case4 l ls' o hne hlt p ih =>
    simp only [List.flatten_cons, List.length_append] at ho
    have hp : locate ls' (o - l.length) = p := rfl
    rw [hp] at ih
    obtain ⟨hline, hsum, hinner, hcol⟩ := ih (by simpa using hne) (by omega)
    simp only [List.length_cons, List.take_succ_cons, List.flatten_cons, List.length_append,
      List.getElem?_cons_succ]
    refine ⟨?_, ?_, fun h => hinner ?_, hcol⟩ <;> omega

theorem positionAt_spec (o : Nat) :
    let p := d.positionAt o
    p.line < d.lineCount ∧ d.lineStart p.line + p.col = min o d.size ∧
      (p.line < d.lastLine → p.col < d.width p.line) ∧ p.col ≤ d.width p.line := by
  have hsize : min o d.size ≤ d.lines.flatten.length := by
    rw [d.flatten_lines]
    exact Nat.min_le_right _ _
  obtain ⟨hline, hsum, hinner, hcol⟩ := locate_spec d.lines_ne_nil hsize
  refine ⟨hline, hsum, fun h => hinner ?_, hcol⟩
  have := d.lastLine_add_one
  unfold lineCount at this
  unfold positionAt at h
  omega

/-- **Every offset has a position in bounds.** -/
theorem inBounds_positionAt (o : Nat) : d.InBounds (d.positionAt o) := by
  obtain ⟨hline, -, hinner, hcol⟩ := d.positionAt_spec o
  refine ⟨hline, ?_⟩
  rcases Nat.lt_or_eq_of_le (Nat.le_of_lt_succ (lastLine_add_one ▸ hline)) with h | h
  · have := hinner h
    have := width_le (d := d) (d.positionAt o).line
    omega
  · rw [h] at hcol ⊢
    exact width_lastLine ▸ hcol

/-- The offset of the position of an offset is that offset. -/
theorem offsetOf_positionAt {o : Nat} (h : o ≤ d.size) : d.offsetOf (d.positionAt o) = o := by
  rw [offsetOf_of_inBounds (inBounds_positionAt o), (d.positionAt_spec o).2.1, Nat.min_eq_left h]

theorem positionAt_mono {o o' : Nat} (h : o ≤ o') : d.positionAt o ≤ d.positionAt o' := by
  obtain ⟨hline, hsum, -, -⟩ := d.positionAt_spec o
  obtain ⟨-, hsum', hinner', -⟩ := d.positionAt_spec o'
  rw [Position.le_def]
  rcases Nat.lt_trichotomy (d.positionAt o).line (d.positionAt o').line with hl | hl | hl
  · exact .inl hl
  · rw [hl] at hsum ⊢
    omega
  · -- The line of `o` would begin behind the break of the line of `o'`.
    have hcol := hinner' (by have := d.lastLine_add_one; omega)
    have hstart := lineStart_mono (d := d) hl
    rw [Nat.succ_eq_add_one, lineStart_succ] at hstart
    omega

/-- Where lines are apart, the position of the offset of a position is that position. -/
theorem LinesApart.positionAt_offsetOf (hd : d.LinesApart) {p : Position} (hp : d.InBounds p) :
    d.positionAt (d.offsetOf p) = p := by
  have hq := d.inBounds_positionAt (d.offsetOf p)
  have ho := d.offsetOf_positionAt (d.offsetOf_le_size p)
  refine Position.le_antisymm ?_ ?_
  · exact (hd.offsetOf_le_iff hq hp).1 (Nat.le_of_eq ho)
  · exact (hd.offsetOf_le_iff hp hq).1 (Nat.le_of_eq ho.symm)

theorem LineFeedsOnly.positionAt_offsetOf (hd : d.LineFeedsOnly) {p : Position}
    (hp : d.InBounds p) : d.positionAt (d.offsetOf p) = p :=
  hd.linesApart.positionAt_offsetOf hp

end ModalEdit.Document
