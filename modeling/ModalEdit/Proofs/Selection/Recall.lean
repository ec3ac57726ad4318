import ModalEdit.Proofs.Selection.Extent
import ModalEdit.Proofs.Span.WholeLines

/-!
# What a selection remembers

Visual line mode keeps two lines in a selection and visual mode two characters. Both are read back
from the positions of the selection: the later end lies behind its line or character, so it is taken
one step back. At the end of a text that ends in a line break this goes wrong. The last line is
empty and has no position behind it, so a selection that reaches it looks like one that ends with
the line break in front of it.

`Document.lineEndpoints_lineCovering` and `Document.charEndpoints_covering` say what is read back
from every selection: what was put in, unless the text ends in a line break, the two ends differ and
one of them is the last line.
-/

namespace ModalEdit.Document

variable {d : Document}

/-! ### Texts that end in a line break -/

/-- The text ends in a line break. -/
def EndsInBreak (d : Document) : Prop := d.text.getLast?.any isLineBreak

instance : Decidable d.EndsInBreak := inferInstanceAs (Decidable (_ = true))

/-- A text ends in a line break if its last line is empty and not the only one. -/
theorem endsInBreak_iff : d.EndsInBreak ↔ 0 < d.lastLine ∧ d.lineLen d.lastLine = 0 := by
  have hne := splitLines_ne_nil d.text
  have hlastChar : d.text.getLast? =
      ((splitLines d.text).dropLast.flatten ++ (splitLines d.text).getLast hne).getLast? := by
    rw [← List.flatten_concat, List.dropLast_append_getLast, flatten_splitLines]
  have hlen : ((splitLines d.text).getLast hne).length = d.lineLen d.lastLine := by
    rw [← width_lastLine, width, line?_lastLine, Option.getD_some]
  have hnumber : d.lastLine = (splitLines d.text).dropLast.length := by
    rw [lastLine, lineCount, d.lines_eq, List.length_dropLast]
  have hbreaks := fun l => getLast?_of_mem_dropLast_splitLines (t := d.text) (l := l)
  have hlast := fun c => not_isLineBreak_of_mem_getLast_splitLines (t := d.text) (c := c)
  rw [EndsInBreak, ← hlen, hnumber, hlastChar, List.length_eq_zero_iff]
  generalize (splitLines d.text).getLast hne = last at hlast
  generalize (splitLines d.text).dropLast = before at hbreaks
  -- The last character is that of the last line, or of the line before it if that is empty.
  rcases List.eq_nil_or_concat last with rfl | ⟨last, c, rfl⟩
  · rcases List.eq_nil_or_concat before with rfl | ⟨before, l, rfl⟩
    · simp
    · obtain ⟨c, hc, hbreak⟩ := hbreaks l (by simp)
      simp [hc, hbreak]
  · simpa using hlast c (by simp)

/-! ### Lines -/

/-- The line that is read back in the place of `i` from a selection of several lines. -/
def recalledLine (d : Document) (i : Nat) : Nat :=
  if d.EndsInBreak then min i (d.lastLine - 1) else i

theorem recalledLine_of_lt {i : Nat} (h : i < d.lastLine) : d.recalledLine i = i := by
  unfold recalledLine
  split <;> omega

variable {first i : Nat}

theorem lt_behindLine (h : first < i) : (⟨first, 0⟩ : Position) < d.behindLine i := by
  unfold behindLine
  split <;> exact .inl (by simp only [lineEnd]; omega)

/-- The end behind a line tells that line, except behind the last line if that is empty. -/
theorem lastLineOf_behindLine (h : first < i) (hi : i ≤ d.lastLine) :
    lastLineOf first (d.behindLine i) = d.recalledLine i := by
  rcases Nat.lt_or_eq_of_le hi with hi | rfl
  · rw [recalledLine_of_lt hi, behindLine, if_pos hi, lastLineOf,
      if_pos ⟨rfl, by dsimp only; omega⟩]
    exact Nat.add_sub_cancel _ _
  · have hpos : 0 < d.lastLine := by omega
    rw [behindLine, if_neg (Nat.lt_irrefl _)]
    simp only [lastLineOf, lineEnd, recalledLine, endsInBreak_iff, h, hpos, true_and, and_true,
      Nat.sub_le, Nat.min_eq_right]

/-- A selection of one line remembers it. -/
theorem lineEndpoints_lineCovering_self (hi : i ≤ d.lastLine) :
    (d.lineCovering i i).lineEndpoints = (i, i) := by
  rw [lineCovering, if_pos (Nat.le_refl i)]
  simp only [Selection.lineEndpoints, Position.lt_def, lastLineOf, behindLine]
  rcases Nat.lt_or_eq_of_le hi with hi | rfl
  · simp [hi]
  · simp [lineEnd]

/-- **What a selection remembers of its lines.** -/
theorem lineEndpoints_lineCovering {a h : Nat} (ha : a ≤ d.lastLine) (hh : h ≤ d.lastLine) :
    (d.lineCovering a h).lineEndpoints =
      if a = h then (a, h) else (d.recalledLine a, d.recalledLine h) := by
  rcases Nat.lt_trichotomy a h with hlt | rfl | hlt
  · have hbehind := lt_behindLine (d := d) hlt
    rw [lineCovering, if_pos (Nat.le_of_lt hlt), Selection.lineEndpoints, if_pos hbehind,
      if_neg (Nat.ne_of_lt hlt), lastLineOf_behindLine hlt hh,
      recalledLine_of_lt (i := a) (by omega)]
  · rw [if_pos rfl, lineEndpoints_lineCovering_self ha]
  · have hbehind := lt_behindLine (d := d) hlt
    have hno : ¬ d.behindLine a < ⟨h, 0⟩ := Position.not_lt.2 (Position.le_of_lt hbehind)
    rw [lineCovering, if_neg (Nat.not_le.2 hlt), Selection.lineEndpoints, if_neg hno,
      if_pos hbehind, if_neg (Nat.ne_of_gt hlt), lastLineOf_behindLine hlt ha,
      recalledLine_of_lt (i := h) (by omega)]

theorem recalledLine_eq_iff (hi : i ≤ d.lastLine) :
    d.recalledLine i = i ↔ ¬ d.EndsInBreak ∨ i < d.lastLine := by
  simp only [recalledLine, endsInBreak_iff]
  split <;> omega

/-- **A selection remembers its lines** unless it has several, one of them is the last one and the
text ends in a line break. -/
theorem lineEndpoints_lineCovering_eq_iff {a h : Nat} (ha : a ≤ d.lastLine)
    (hh : h ≤ d.lastLine) :
    (d.lineCovering a h).lineEndpoints = (a, h) ↔
      a = h ∨ ¬ d.EndsInBreak ∨ a < d.lastLine ∧ h < d.lastLine := by
  rw [lineEndpoints_lineCovering ha hh]
  by_cases heq : a = h
  · simp [heq]
  · rw [if_neg heq, Prod.mk.injEq, recalledLine_eq_iff ha, recalledLine_eq_iff hh]
    simp only [heq, false_or, or_and_left]

/-! ### Characters -/

/-- The position names a character or the break behind a line. The start of an empty last line is
let through, although there is neither. -/
def NamesChar (d : Document) (p : Position) : Prop := d.clampChar p = p

instance (p : Position) : Decidable (d.NamesChar p) := inferInstanceAs (Decidable (_ = _))

/-- The character that is read back in the place of `p` from a selection of several characters. -/
def recalledChar (d : Document) (p : Position) : Position :=
  if d.EndsInBreak ∧ p.line = d.lastLine then d.stepBack p else p

variable {p q : Position}

theorem namesChar_iff :
    d.NamesChar p ↔ d.InBounds p ∧ (p.line = d.lastLine → p.col ≤ d.lineLen p.line - 1) := by
  constructor
  · intro h
    have hin : d.InBounds p := h ▸ d.inBounds_clampChar p
    refine ⟨hin, fun hline => ?_⟩
    rw [NamesChar, clampChar, d.clamp_of_inBounds hin] at h
    split at h
    · rw [← h]
    · omega
  · rintro ⟨hin, hcol⟩
    rw [NamesChar, clampChar, d.clamp_of_inBounds hin]
    split
    · rename_i hend
      have := hcol hend.1
      exact Position.ext_iff'.2 ⟨rfl, by dsimp only; omega⟩
    · rfl

theorem namesChar_clampChar (p : Position) : d.NamesChar (d.clampChar p) := by
  refine namesChar_iff.2 ⟨d.inBounds_clampChar p, ?_⟩
  unfold clampChar
  dsimp only
  split
  · exact fun _ => Nat.le_refl _
  · omega

/-- The start of a line is let through. -/
theorem namesChar_lineStart {i : Nat} (hi : i < d.lineCount) : d.NamesChar ⟨i, 0⟩ :=
  namesChar_iff.2 ⟨inBounds_lineStart hi, fun _ => Nat.zero_le _⟩

theorem line_clampChar (p : Position) : (d.clampChar p).line = (d.clamp p).line := by
  unfold clampChar
  dsimp only
  split <;> rfl

theorem le_stepForward (hp : d.InBounds p) : p ≤ d.stepForward p := by
  have hcol := hp.2
  unfold stepForward
  split
  · exact .inr ⟨rfl, Nat.le_succ _⟩
  · split
    · exact .inl (Nat.lt_succ_self _)
    · exact .inr ⟨rfl, hcol⟩

/-- A step forward and one back lead to the character from which they start, but from an empty last
line to the break before it. -/
theorem stepBack_stepForward (hp : d.NamesChar p) :
    d.stepBack (d.stepForward p) = d.recalledChar p := by
  obtain ⟨⟨hline, hcol⟩, hlast⟩ := namesChar_iff.1 hp
  have hlineEnd : ¬ p.col < d.lineLen p.line → d.lineEnd p.line = p := fun hge =>
    Position.ext_iff'.2 ⟨rfl, Nat.le_antisymm (Nat.le_of_not_lt hge) hcol⟩
  have hlastLine := d.lastLine_add_one
  simp only [recalledChar, endsInBreak_iff]
  unfold stepForward
  split
  · -- Within a line.
    rename_i hlt
    rw [if_neg (by rintro ⟨⟨-, hempty⟩, heq⟩; rw [heq] at hlt; omega), stepBack,
      if_pos (Nat.succ_pos _)]
    rfl
  · split
    · -- At a break.
      rename_i hge hlt
      rw [if_neg (by omega), stepBack, if_neg (Nat.lt_irrefl _), if_pos (Nat.succ_pos _)]
      exact hlineEnd hge
    · -- On an empty last line.
      rename_i hge hend
      have heq : p.line = d.lastLine := by omega
      have := hlast heq
      rw [hlineEnd hge]
      split
      · rfl
      · rename_i hno
        rw [heq] at this hge hcol
        rw [stepBack, if_neg (by omega), if_neg (by omega)]

theorem recalledChar_of_lt (hlt : p < q) (hq : d.InBounds q) : d.recalledChar p = p := by
  rw [recalledChar, if_neg]
  rintro ⟨hbreak, hline⟩
  have hempty := (endsInBreak_iff.1 hbreak).2
  have hqline := hq.line_le
  have hqcol := hq.2
  rcases hlt with hlt | ⟨heq, hlt⟩
  · omega
  · rw [← heq, hline] at hqcol
    omega

theorem recalledChar_eq_iff (hp : d.NamesChar p) :
    d.recalledChar p = p ↔ ¬ d.EndsInBreak ∨ p.line < d.lastLine := by
  obtain ⟨hin, hlast⟩ := namesChar_iff.1 hp
  have hline := hin.line_le
  unfold recalledChar
  split
  · rename_i h
    obtain ⟨hpos, hempty⟩ := endsInBreak_iff.1 h.1
    have hcol := hlast h.2
    rw [h.2] at hcol
    have hne : d.stepBack p ≠ p := by
      intro heq
      rw [stepBack, if_neg (by omega), if_pos (by omega)] at heq
      have := congrArg Position.line heq
      dsimp only [lineEnd] at this
      omega
    simp only [hne, h.1, not_true, h.2, Nat.lt_irrefl, or_self]
  · rename_i h
    simp only [not_and] at h
    simp only [true_iff]
    by_cases hbreak : d.EndsInBreak
    · exact .inr (by have := h hbreak; omega)
    · exact .inl hbreak

/-- A selection of one character remembers it. -/
theorem charEndpoints_covering_self (hp : d.NamesChar p) :
    d.charEndpoints (d.covering p p) = (p, p) := by
  have hin := (namesChar_iff.1 hp).1
  rw [covering, if_pos (Position.le_refl p), charEndpoints]
  dsimp only
  rcases Position.lt_or_eq_of_le (le_stepForward hin) with hlt | heq
  · rw [if_pos hlt, stepBack_stepForward hp,
      recalledChar_of_lt hlt (inBounds_stepForward hin)]
  · rw [← heq, if_neg (Position.lt_irrefl p), if_neg (Position.lt_irrefl p)]

/-- **What a selection remembers of its characters.** -/
theorem charEndpoints_covering {a h : Position} (ha : d.NamesChar a) (hh : d.NamesChar h) :
    d.charEndpoints (d.covering a h) =
      if a = h then (a, h) else (d.recalledChar a, d.recalledChar h) := by
  have hain := (namesChar_iff.1 ha).1
  have hhin := (namesChar_iff.1 hh).1
  by_cases heq : a = h
  · rw [heq, if_pos rfl, charEndpoints_covering_self hh]
  rw [if_neg heq]
  rcases Position.le_total a h with hle | hle
  · have hlt := (Position.lt_or_eq_of_le hle).resolve_right heq
    have hstep := Position.lt_of_lt_of_le hlt (le_stepForward hhin)
    rw [covering, if_pos hle, charEndpoints, if_pos hstep, stepBack_stepForward hh,
      recalledChar_of_lt hlt hhin]
  · have hlt := (Position.lt_or_eq_of_le hle).resolve_right (Ne.symm heq)
    have hstep := Position.lt_of_lt_of_le hlt (le_stepForward hain)
    have hno : ¬ d.stepForward a < h := Position.not_lt.2 (Position.le_of_lt hstep)
    rw [covering, if_neg (Position.not_le.2 hlt), charEndpoints, if_neg hno, if_pos hstep,
      stepBack_stepForward ha, recalledChar_of_lt hlt hain]

/-- **A selection remembers its characters** unless it has several, one end is on the last line and
the text ends in a line break. -/
theorem charEndpoints_covering_eq_iff {a h : Position} (ha : d.NamesChar a)
    (hh : d.NamesChar h) :
    d.charEndpoints (d.covering a h) = (a, h) ↔
      a = h ∨ ¬ d.EndsInBreak ∨ a.line < d.lastLine ∧ h.line < d.lastLine := by
  rw [charEndpoints_covering ha hh]
  by_cases heq : a = h
  · simp [heq]
  · rw [if_neg heq, Prod.mk.injEq, recalledChar_eq_iff ha, recalledChar_eq_iff hh]
    simp only [heq, false_or, or_and_left]

end ModalEdit.Document
