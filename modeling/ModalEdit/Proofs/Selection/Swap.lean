import ModalEdit.Command.Basic
import ModalEdit.Proofs.Selection.Recall

/-!
# What a selection covers, from either end

A selection of two characters covers both of them, whichever comes first: it begins at the earlier
one and ends a step behind the later one (`Document.range_covering`). A selection of two lines
begins at the earlier line and ends behind the later one (`Document.range_lineCovering`). So the
same characters or lines taken the other way round cover the same piece.

To exchange its ends, a selection is read back as two characters or lines, and these are covered the
other way round. That is still the same piece, although other characters or lines may be read back
than went in (`Document.range_swapLines`); but a selection of nothing is read back as a character,
and comes out covering it (`Document.range_swapChars`).
-/

namespace ModalEdit

namespace Document

variable {d : Document} {p q a h : Position} {sel : Selection}

/-! ### Steps -/

/-- In a text whose only breaks are line feeds one step forward is one character, except at the
end. -/
theorem LineFeedsOnly.offsetOf_stepForward (hd : d.LineFeedsOnly) (hp : d.InBounds p) :
    d.offsetOf (d.stepForward p) = min (d.offsetOf p + 1) d.size := by
  have hle := d.offsetOf_le_size (d.stepForward p)
  have hstep := inBounds_stepForward hp
  rw [offsetOf_of_inBounds hstep] at hle ⊢
  rw [offsetOf_of_inBounds hp]
  have hcol := hp.2
  revert hle
  unfold stepForward
  split
  · dsimp only
    omega
  · split
    · -- over the break behind a line
      rename_i hge hlt
      have hstart := hd.lineStart_eq_add_one (i := p.line + 1) (Nat.succ_pos _) hlt
      rw [Nat.add_sub_cancel, offsetOf_of_inBounds (inBounds_lineEnd hp.1)] at hstart
      have hfull : p.col = d.lineLen p.line := by omega
      dsimp only [lineEnd] at hstart ⊢
      omega
    · -- the last position of the text
      rename_i hge hlast
      have hline : p.line = d.lastLine := Nat.le_antisymm hp.line_le (Nat.le_of_not_lt hlast)
      have hend := d.lineStart_lastLine
      rw [hline] at hcol hge ⊢
      dsimp only [lineEnd]
      omega

/-- A step forward undoes a step back. -/
theorem stepForward_stepBack (hp : d.InBounds p) (hne : p ≠ .origin) :
    d.stepForward (d.stepBack p) = p := by
  have hcol := hp.2
  have hline := hp.line_le
  unfold stepBack
  split
  · rw [stepForward, if_pos (by dsimp only; omega)]
    exact Position.ext_iff'.2 ⟨rfl, by dsimp only; omega⟩
  · split
    · -- from the start of a line over the break before it
      have hat : ¬ (d.lineEnd (p.line - 1)).col < d.lineLen (d.lineEnd (p.line - 1)).line :=
        Nat.lt_irrefl _
      rw [stepForward, if_neg hat, if_pos (by dsimp only [lineEnd]; omega)]
      exact Position.ext_iff'.2 ⟨by dsimp only [lineEnd]; omega, by dsimp only; omega⟩
    · exact absurd (Position.ext_iff'.2 ⟨by dsimp only [Position.origin]; omega,
        by dsimp only [Position.origin]; omega⟩) hne

/-- A step forward leads nowhere only from the end of the text. -/
theorem stepForward_eq_self_iff (hp : d.InBounds p) :
    d.stepForward p = p ↔ p = d.endPosition := by
  have hcol := hp.2
  have hline := hp.line_le
  have hend : p = d.endPosition ↔ p.line = d.lastLine ∧ p.col = d.lineLen d.lastLine :=
    Position.ext_iff'
  rw [hend, Position.ext_iff']
  unfold stepForward
  split
  · rename_i hlt
    refine iff_of_false (fun heq => Nat.succ_ne_self _ heq.2) ?_
    rintro ⟨hlast, hfull⟩
    rw [hlast, hfull] at hlt
    exact Nat.lt_irrefl _ hlt
  · split
    · rename_i hlt
      exact iff_of_false (fun heq => Nat.succ_ne_self _ heq.1) fun heq => Nat.ne_of_lt hlt heq.1
    · have hlast : p.line = d.lastLine := by omega
      rw [hlast] at *
      dsimp only [lineEnd]
      omega

/-- A step back from `p` does not pass what lies before `p`. -/
theorem le_stepBack (ha : d.InBounds a) (hlt : a < p) : a ≤ d.stepBack p := by
  have hcol := ha.2
  unfold stepBack
  split
  · simp only [Position.lt_def, Position.le_def] at hlt ⊢
    omega
  · split
    · -- The step leads to the end of the line before, and no column there lies behind it.
      rcases hlt with hlt | ⟨-, hlt⟩
      · rcases Nat.lt_or_eq_of_le (Nat.le_sub_one_of_lt hlt) with hlt | heq
        · exact .inl hlt
        · exact .inr ⟨heq, heq ▸ hcol⟩
      · omega
    · exact Position.le_of_lt hlt

/-! ### Characters -/

/-- **A selection covers both of its characters**, whichever comes first. -/
theorem range_covering (ha : d.InBounds a) (hh : d.InBounds h) :
    (d.covering a h).range = ⟨min a h, d.stepForward (max a h), none⟩ := by
  unfold covering
  split
  · rename_i hle
    rw [Position.min_eq_left hle, Position.max_eq_right hle]
    exact Range.between_of_le (Position.le_trans hle (le_stepForward hh))
  · rename_i hnle
    have hle := Position.le_of_lt (Position.not_le.1 hnle)
    rw [Position.min_eq_right hle, Position.max_eq_left hle, Selection.range, Range.between_comm]
    exact Range.between_of_le (Position.le_trans hle (le_stepForward ha))

/-- The same characters the other way round cover the same piece. -/
theorem range_covering_comm (ha : d.InBounds a) (hh : d.InBounds h) :
    (d.covering a h).range = (d.covering h a).range := by
  rw [range_covering ha hh, range_covering hh ha, Position.min_comm, Position.max_comm]

/-- The moving end is on the side of the head. -/
theorem anchor_le_active_covering (ha : d.InBounds a) (hh : d.InBounds h) :
    (d.covering a h).anchor ≤ (d.covering a h).active ↔ a ≤ h := by
  unfold covering
  split
  · rename_i hle
    exact iff_of_true (Position.le_trans hle (le_stepForward hh)) hle
  · rename_i hnle
    have hlt := Position.lt_of_lt_of_le (Position.not_le.1 hnle) (le_stepForward ha)
    exact iff_of_false (Position.not_le.2 hlt) hnle

/-- The selection covers the characters from the one at `a` to the one at `h`, both included and in
either order, and its moving end is on the side of `h`. -/
structure CoversBoth (d : Document) (a h : Position) (sel : Selection) : Prop where
  /-- Both ends are in bounds. -/
  holds : d.Holds sel
  /-- It begins at the earlier of the two. -/
  start : d.offsetOf sel.range.start = min (d.offsetOf a) (d.offsetOf h)
  /-- It ends behind the later one, unless that is the end of the text. -/
  stop : d.offsetOf sel.range.stop = min (max (d.offsetOf a) (d.offsetOf h) + 1) d.size
  /-- The moving end comes last if and only if `h` does. -/
  side : sel.anchor ≤ sel.active ↔ a ≤ h

theorem LineFeedsOnly.coversBoth_covering (hd : d.LineFeedsOnly) (ha : d.InBounds a)
    (hh : d.InBounds h) : d.CoversBoth a h (d.covering a h) where
  holds := holds_covering ha hh
  start := by rw [range_covering ha hh, offsetOf_min ha hh]
  stop := by
    rw [range_covering ha hh, hd.offsetOf_stepForward (inBounds_max ha hh), offsetOf_max ha hh]
  side := anchor_le_active_covering ha hh

/-- **A visual selection covers the characters at its ends, whatever its direction**: for every text
whose only breaks are line feeds and any two positions that name a character or a break. -/
theorem covering_both_ways (d : Document) (a h : Position) (hd : d.LineFeedsOnly)
    (ha : d.NamesChar a) (hh : d.NamesChar h) :
    (d.covering a h).range = (d.covering h a).range ∧ d.CoversBoth a h (d.covering a h) := by
  have hain := (namesChar_iff.1 ha).1
  have hhin := (namesChar_iff.1 hh).1
  exact ⟨range_covering_comm hain hhin, hd.coversBoth_covering hain hhin⟩

/-- The break of the first line and the empty last line, from the end of the text backwards. -/
theorem covering_both_ways_backwards :
    let d := Document.ofText ['a', '\n']
    d.LineFeedsOnly ∧ d.NamesChar ⟨1, 0⟩ ∧ d.NamesChar ⟨0, 1⟩ ∧
      (d.covering ⟨1, 0⟩ ⟨0, 1⟩).range = (d.covering ⟨0, 1⟩ ⟨1, 0⟩).range ∧
      d.CoversBoth ⟨1, 0⟩ ⟨0, 1⟩ (d.covering ⟨1, 0⟩ ⟨0, 1⟩) := by
  intro d
  have hd : d.LineFeedsOnly := by decide
  have ha : d.NamesChar ⟨1, 0⟩ := by decide
  have hh : d.NamesChar ⟨0, 1⟩ := by decide
  exact ⟨hd, ha, hh, covering_both_ways d ⟨1, 0⟩ ⟨0, 1⟩ hd ha hh⟩

/-- The selection with its characters exchanged. -/
def swapChars (d : Document) (sel : Selection) : Selection :=
  d.covering (d.charEndpoints sel).2 (d.charEndpoints sel).1

/-- The characters that are read back from a piece that holds something cover it again. -/
theorem range_covering_stepBack (ha : d.InBounds a) (hp : d.InBounds p) (hlt : a < p) :
    (d.covering a (d.stepBack p)).range = ⟨a, p, none⟩ := by
  have hle := le_stepBack ha hlt
  have hne : p ≠ .origin := by
    rintro rfl
    exact Position.not_lt.2 (Position.origin_le a) hlt
  rw [range_covering ha (inBounds_stepBack hp), Position.min_eq_left hle,
    Position.max_eq_right hle, stepForward_stepBack hp hne]

/-- **Exchanging the characters of a selection keeps the piece**, but a selection of nothing comes
out covering the character behind it. -/
theorem range_swapChars (hsel : d.Holds sel) :
    (d.swapChars sel).range =
      if sel.isEmpty then ⟨sel.active, d.stepForward sel.active, none⟩ else sel.range := by
  obtain ⟨anchor, active⟩ := sel
  have ha : d.InBounds anchor := hsel.1
  have hh : d.InBounds active := hsel.2
  have hsome (hne : anchor ≠ active) : ¬ (⟨anchor, active⟩ : Selection).isEmpty = true :=
    fun hempty => hne (beq_iff_eq.1 hempty)
  rw [swapChars, charEndpoints]
  dsimp only
  split
  · rename_i hlt
    rw [if_neg (hsome fun heq => Position.lt_irrefl _ (heq ▸ hlt)),
      range_covering_comm (inBounds_stepBack hh) ha, range_covering_stepBack ha hh hlt,
      Selection.range, Range.between_of_le (Position.le_of_lt hlt)]
  · split
    · rename_i hlt
      rw [if_neg (hsome fun heq => Position.lt_irrefl _ (heq ▸ hlt)),
        range_covering_stepBack hh ha hlt, Selection.range, Range.between_comm,
        Range.between_of_le (Position.le_of_lt hlt)]
    · -- Both ends are the same, and so are the characters read back.
      rename_i hnlt hngt
      obtain rfl := Position.le_antisymm (Position.not_lt.1 hngt) (Position.not_lt.1 hnlt)
      have hempty : (⟨anchor, anchor⟩ : Selection).isEmpty = true := beq_self_eq_true anchor
      rw [if_pos hempty, range_covering hh hh, Position.min_eq_left (Position.le_refl _),
        Position.max_eq_left (Position.le_refl _)]

/-- Exchanging the characters of the selection makes it larger: it is a cursor with a character
behind it. -/
def Widens (d : Document) (sel : Selection) : Prop := sel.isEmpty ∧ sel.active ≠ d.endPosition

instance (d : Document) (sel : Selection) : Decidable (d.Widens sel) :=
  inferInstanceAs (Decidable (_ ∧ _))

theorem range_swapChars_eq_iff (hsel : d.Holds sel) :
    (d.swapChars sel).range = sel.range ↔ ¬ d.Widens sel := by
  rw [range_swapChars hsel, Widens]
  split
  · rename_i hempty
    have heq : sel.anchor = sel.active := beq_iff_eq.1 hempty
    rw [Selection.range, heq, Range.between_of_le (Position.le_refl _), Range.mk.injEq,
      stepForward_eq_self_iff hsel.2]
    simp only [hempty, true_and, and_true, not_not]
  · rename_i hempty
    simp only [hempty, Bool.false_eq_true, false_and, not_false_eq_true]

/-! ### Lines -/

theorem lineStart_le_behindLine {first i : Nat} (hle : first ≤ i) :
    (⟨first, 0⟩ : Position) ≤ d.behindLine i := by
  rcases Nat.lt_or_eq_of_le hle with hlt | rfl
  · exact Position.le_of_lt (lt_behindLine hlt)
  · unfold behindLine
    split
    · exact .inl (Nat.lt_succ_self _)
    · exact .inr ⟨rfl, Nat.zero_le _⟩

/-- **A selection covers both of its lines**, whichever comes first. -/
theorem range_lineCovering (a h : Nat) :
    (d.lineCovering a h).range = ⟨⟨min a h, 0⟩, d.behindLine (max a h), none⟩ := by
  unfold lineCovering
  split
  · rename_i hle
    rw [Nat.min_eq_left hle, Nat.max_eq_right hle]
    exact Range.between_of_le (lineStart_le_behindLine hle)
  · rename_i hnle
    have hle := Nat.le_of_not_le hnle
    rw [Nat.min_eq_right hle, Nat.max_eq_left hle, Selection.range, Range.between_comm]
    exact Range.between_of_le (lineStart_le_behindLine hle)

/-- The line that is read back ends where the line did that was put in. -/
theorem behindLine_recalledLine {i : Nat} (hpos : 0 < i) (hi : i ≤ d.lastLine) :
    d.behindLine (d.recalledLine i) = d.behindLine i := by
  rcases Nat.lt_or_eq_of_le hi with hlt | rfl
  · rw [recalledLine_of_lt hlt]
  · unfold recalledLine
    split
    · rename_i hbreak
      have hempty := (endsInBreak_iff.1 hbreak).2
      rw [Nat.min_eq_right (Nat.sub_le _ _), behindLine, if_pos (by omega), behindLine,
        if_neg (Nat.lt_irrefl _), lineEnd, hempty, Nat.sub_add_cancel hpos]
    · rfl

theorem recalledLine_min (a h : Nat) :
    min (d.recalledLine a) (d.recalledLine h) = d.recalledLine (min a h) := by
  unfold recalledLine
  split <;> omega

theorem recalledLine_max (a h : Nat) :
    max (d.recalledLine a) (d.recalledLine h) = d.recalledLine (max a h) := by
  unfold recalledLine
  split <;> omega

/-- The selection with its lines exchanged. -/
def swapLines (d : Document) (sel : Selection) : Selection :=
  d.lineCovering sel.lineEndpoints.2 sel.lineEndpoints.1

/-- **Exchanging the lines of a selection keeps the piece**, even where they are not the lines that
it was made from. -/
theorem range_swapLines (hsel : d.CoversLines sel) : (d.swapLines sel).range = sel.range := by
  obtain ⟨a, h, ha, hh, rfl⟩ := hsel
  have hlast := d.lastLine_add_one
  rw [swapLines, lineEndpoints_lineCovering (by omega) (by omega), range_lineCovering,
    range_lineCovering]
  split
  · rw [Nat.min_comm, Nat.max_comm]
  · rename_i hne
    rw [Nat.min_comm, Nat.max_comm, recalledLine_min, recalledLine_max,
      recalledLine_of_lt (by omega), behindLine_recalledLine (by omega) (by omega)]

end Document

end ModalEdit
