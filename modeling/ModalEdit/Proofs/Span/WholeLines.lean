import ModalEdit.Command.Operator
import ModalEdit.Proofs.Span.Bounds

/-!
# Whole lines

Where the range of whole lines begins and ends (`Document.start_linesSpan`,
`Document.stop_linesSpan`), and what becomes of two such ranges that are merged: the range of all
the lines from the first one to the last one (`Range.union_linesSpan`). It ends where the later of
the two ends, but it need not begin where the earlier of them begins: only a range that reaches the
last line begins before its first line, with the break in front of it.
-/

namespace ModalEdit

namespace Position

variable {p q : Position}

theorem min_eq_left (h : p ≤ q) : min p q = p := if_pos h

theorem min_eq_right (h : q ≤ p) : min p q = q := by
  by_cases hpq : p ≤ q
  · exact (min_eq_left hpq).trans (Position.le_antisymm hpq h)
  · exact if_neg hpq

theorem min_comm (p q : Position) : min p q = min q p := by
  rcases Position.le_total p q with h | h
  · rw [min_eq_left h, min_eq_right h]
  · rw [min_eq_right h, min_eq_left h]

theorem max_eq_right (h : p ≤ q) : max p q = q := if_pos h

theorem max_eq_left (h : q ≤ p) : max p q = p := by
  by_cases hpq : p ≤ q
  · exact (max_eq_right hpq).trans (Position.le_antisymm h hpq)
  · exact if_neg hpq

theorem max_comm (p q : Position) : max p q = max q p := by
  rcases Position.le_total p q with h | h
  · rw [max_eq_right h, max_eq_left h]
  · rw [max_eq_left h, max_eq_right h]

theorem le_max_left (p q : Position) : p ≤ max p q := by
  rcases Position.le_total p q with h | h
  · exact (max_eq_right h).symm ▸ h
  · exact (max_eq_left h).symm ▸ Position.le_refl p

theorem le_max_right (p q : Position) : q ≤ max p q := by
  rcases Position.le_total p q with h | h
  · exact (max_eq_right h).symm ▸ Position.le_refl q
  · exact (max_eq_left h).symm ▸ h

theorem origin_le (p : Position) : origin ≤ p := by
  simp only [le_def, origin]; omega

theorem max_right_comm (p q r : Position) : max (max p q) r = max (max p r) q := by
  have hle {a b c : Position} (ha : a ≤ c) (hb : b ≤ c) : max a b ≤ c := by
    rcases Position.le_total a b with h | h
    · exact (max_eq_right h).symm ▸ hb
    · exact (max_eq_left h).symm ▸ ha
  have hhalf (p q r : Position) : max (max p q) r ≤ max (max p r) q := by
    refine hle (hle ?_ (le_max_right _ _)) ?_
    · exact Position.le_trans (le_max_left p r) (le_max_left _ _)
    · exact Position.le_trans (le_max_right p r) (le_max_left _ _)
  exact Position.le_antisymm (hhalf p q r) (hhalf p r q)

protected theorem le_of_lt (h : p < q) : p ≤ q := by
  simp only [le_def, lt_def] at *; omega

protected theorem lt_of_le_of_lt {r : Position} (h : p ≤ q) (h' : q < r) : p < r := by
  simp only [le_def, lt_def] at *; omega

protected theorem lt_of_lt_of_le {r : Position} (h : p < q) (h' : q ≤ r) : p < r := by
  simp only [le_def, lt_def] at *; omega

protected theorem lt_irrefl (p : Position) : ¬ p < p := by
  simp only [lt_def]; omega

protected theorem lt_or_eq_of_le (h : p ≤ q) : p < q ∨ p = q := by
  simp only [le_def, lt_def, ext_iff'] at *; omega

end Position

namespace Document

variable {d : Document} {first last : Nat} {withBreak : Bool}

theorem offsetOf_min {p q : Position} (hp : d.InBounds p) (hq : d.InBounds q) :
    d.offsetOf (min p q) = min (d.offsetOf p) (d.offsetOf q) := by
  rcases Position.le_total p q with h | h
  · rw [Position.min_eq_left h, Nat.min_eq_left (offsetOf_mono hp hq h)]
  · rw [Position.min_eq_right h, Nat.min_eq_right (offsetOf_mono hq hp h)]

theorem offsetOf_max {p q : Position} (hp : d.InBounds p) (hq : d.InBounds q) :
    d.offsetOf (max p q) = max (d.offsetOf p) (d.offsetOf q) := by
  rcases Position.le_total p q with h | h
  · rw [Position.max_eq_right h, Nat.max_eq_right (offsetOf_mono hp hq h)]
  · rw [Position.max_eq_left h, Nat.max_eq_left (offsetOf_mono hq hp h)]

theorem linesSpan_of_le (hle : first ≤ last) (hlast : last ≤ d.lastLine) :
    d.linesSpan first last withBreak =
      Range.withLines
        (if ¬ withBreak then .between ⟨first, 0⟩ (d.lineEnd last)
        else if last < d.lastLine then .between ⟨first, 0⟩ ⟨last + 1, 0⟩
        else if 0 < first then .between (d.lineEnd (first - 1)) (d.lineEnd last)
        else Range.between .origin (d.lineEnd last)) first last := by
  simp only [linesSpan, Nat.min_eq_left hlast, Nat.min_eq_left hle]

/-- **Whole lines begin with their first line**, unless nothing follows them and they take the break
in front instead. -/
theorem start_linesSpan (hle : first ≤ last) (hlast : last ≤ d.lastLine) :
    (d.linesSpan first last withBreak).start =
      if withBreak ∧ last = d.lastLine ∧ 0 < first then d.lineEnd (first - 1) else ⟨first, 0⟩ := by
  have hline : (⟨first, 0⟩ : Position) ≤ d.lineEnd last := by
    simp only [Position.le_def, lineEnd]; omega
  have hnext : (⟨first, 0⟩ : Position) ≤ ⟨last + 1, 0⟩ := by
    simp only [Position.le_def]; omega
  rw [linesSpan_of_le hle hlast]
  cases withBreak with
  | false => simp [Range.withLines, Range.between_of_le hline]
  | true =>
    by_cases hend : last < d.lastLine
    · have : ¬ (last = d.lastLine ∧ 0 < first) := by omega
      simp [Range.withLines, hend, this, Range.between_of_le hnext]
    · obtain rfl : last = d.lastLine := by omega
      by_cases hfirst : 0 < first
      · have hbefore : d.lineEnd (first - 1) ≤ d.lineEnd d.lastLine := .inl (by
          simp only [lineEnd]; omega)
        simp [Range.withLines, hfirst, Range.between_of_le hbefore]
      · obtain rfl : first = 0 := by omega
        simp [Range.withLines, Position.origin, Range.between_of_le hline]

/-- **Whole lines end with their last line**, or behind its break. -/
theorem stop_linesSpan (hle : first ≤ last) (hlast : last ≤ d.lastLine) :
    (d.linesSpan first last withBreak).stop =
      if withBreak ∧ last < d.lastLine then ⟨last + 1, 0⟩ else d.lineEnd last := by
  have hline : (⟨first, 0⟩ : Position) ≤ d.lineEnd last := by
    simp only [Position.le_def, lineEnd]; omega
  have hnext : (⟨first, 0⟩ : Position) ≤ ⟨last + 1, 0⟩ := by
    simp only [Position.le_def]; omega
  rw [linesSpan_of_le hle hlast]
  cases withBreak with
  | false => simp [Range.withLines, Range.between_of_le hline]
  | true =>
    by_cases hend : last < d.lastLine
    · simp [Range.withLines, hend, Range.between_of_le hnext]
    · obtain rfl : last = d.lastLine := by omega
      by_cases hfirst : 0 < first
      · have hbefore : d.lineEnd (first - 1) ≤ d.lineEnd d.lastLine := .inl (by
          simp only [lineEnd]; omega)
        simp [Range.withLines, hfirst, Range.between_of_le hbefore]
      · obtain rfl : first = 0 := by omega
        simp [Range.withLines, Position.origin, Range.between_of_le hline]

theorem start_linesSpan_of_lt (hle : first ≤ last) (hlt : last < d.lastLine) :
    (d.linesSpan first last withBreak).start = ⟨first, 0⟩ := by
  rw [start_linesSpan hle (Nat.le_of_lt hlt), if_neg (by omega)]

theorem stop_linesSpan_of_lt (hle : first ≤ last) (hlt : last < d.lastLine) :
    (d.linesSpan first last true).stop = ⟨last + 1, 0⟩ := by
  rw [stop_linesSpan hle (Nat.le_of_lt hlt), if_pos ⟨rfl, hlt⟩]

theorem stop_linesSpan_lastLine (hle : first ≤ d.lastLine) :
    (d.linesSpan first d.lastLine withBreak).stop = d.endPosition := by
  rw [stop_linesSpan hle (Nat.le_refl _), if_neg fun h => absurd h.2 (Nat.lt_irrefl _), endPosition]

theorem lines_linesSpan_of_le (hle : first ≤ last) (hlast : last ≤ d.lastLine) :
    (d.linesSpan first last withBreak).lines = some ⟨first, last⟩ := by
  rw [lines_linesSpan, Nat.min_eq_left hlast, Nat.min_eq_left hle]

theorem start_linesSpan_le (hle : first ≤ last) (hlast : last ≤ d.lastLine) :
    (d.linesSpan first last withBreak).start ≤ ⟨first, 0⟩ := by
  rw [start_linesSpan hle hlast]
  split
  · exact .inl (by simp only [lineEnd]; omega)
  · exact Position.le_refl _

/-- Whole lines that begin with an earlier line do not begin later. -/
theorem start_linesSpan_mono {first' last' : Nat} (hle : first ≤ last) (hlast : last ≤ d.lastLine)
    (hle' : first' ≤ last') (hlast' : last' ≤ d.lastLine) (h : first < first') :
    (d.linesSpan first last withBreak).start ≤ (d.linesSpan first' last' withBreak).start := by
  refine Position.le_trans (start_linesSpan_le hle hlast) ?_
  rw [start_linesSpan hle' hlast']
  split
  · simp only [Position.le_def, lineEnd]; omega
  · exact .inl h

/-- Whole lines that end with a later line do not end earlier. -/
theorem stop_linesSpan_mono {first' last' : Nat} (hle : first ≤ last) (hlast : last ≤ d.lastLine)
    (hle' : first' ≤ last') (hlast' : last' ≤ d.lastLine) (h : last ≤ last') :
    (d.linesSpan first last withBreak).stop ≤ (d.linesSpan first' last' withBreak).stop := by
  rcases Nat.lt_or_eq_of_le h with h | rfl
  · rw [stop_linesSpan hle hlast, stop_linesSpan hle' hlast']
    split <;> split <;> simp only [Position.le_def, lineEnd] <;> omega
  · rw [stop_linesSpan hle hlast, stop_linesSpan hle' hlast']
    exact Position.le_refl _

/-- All lines have no line break around them. -/
theorem linesSpan_all (withBreak : Bool) :
    d.linesSpan 0 d.lastLine withBreak = d.linesSpan 0 d.lastLine true := by
  have hle := Nat.zero_le d.lastLine
  rw [linesSpan_of_le hle (Nat.le_refl _), linesSpan_of_le hle (Nat.le_refl _)]
  cases withBreak <;> simp [Position.origin]

end Document

namespace Range

open Document

variable {d : Document} {first last first' last' : Nat} {withBreak : Bool}

theorem takesBreak_linesSpan (hle : first ≤ last) (hlast : last ≤ d.lastLine) :
    (d.linesSpan first last withBreak).takesBreak =
      (withBreak && (decide (last < d.lastLine) || decide (0 < first))) := by
  rw [takesBreak, lines_linesSpan_of_le hle hlast]
  simp only [start_linesSpan hle hlast, stop_linesSpan hle hlast]
  rw [Bool.eq_iff_iff]
  cases withBreak with
  | false => simp [lineEnd]
  | true =>
    simp only [true_and, Bool.true_and, Bool.or_eq_true, decide_eq_true_eq]
    split <;> split <;> simp only [lineEnd] <;> omega

/-- **Whole lines merge to whole lines**, from the first line of either to the last. -/
theorem union_linesSpan (hle : first ≤ last) (hlast : last ≤ d.lastLine) (hle' : first' ≤ last')
    (hlast' : last' ≤ d.lastLine) :
    (d.linesSpan first last withBreak).union d (d.linesSpan first' last' withBreak) =
      d.linesSpan (min first first') (max last last') withBreak := by
  rw [union, lines_linesSpan_of_le hle hlast, lines_linesSpan_of_le hle' hlast']
  simp only [takesBreak_linesSpan hle hlast, takesBreak_linesSpan hle' hlast']
  by_cases hall : last = d.lastLine ∧ first = 0 ∧ last' = d.lastLine ∧ first' = 0
  · obtain ⟨rfl, rfl, rfl, rfl⟩ := hall
    simp only [Nat.min_self, Nat.max_self]
    rw [linesSpan_all, ← linesSpan_all withBreak]
  · congr 1
    rw [← Bool.and_or_distrib_left, Bool.and_eq_left_iff_imp]
    intro _
    simp only [Bool.or_eq_true, decide_eq_true_eq]
    omega

/-- Ranges of which one is a piece of characters merge to the piece that holds both. -/
theorem union_of_lines_eq_none {r q : Range} (h : r.lines = none ∨ q.lines = none)
    (hr : r.start ≤ r.stop) : r.union d q = ⟨r.start, max r.stop q.stop, none⟩ := by
  have hle : r.start ≤ max r.stop q.stop := Position.le_trans hr (Position.le_max_left _ _)
  unfold union
  split
  · simp_all
  · exact between_of_le hle

/-- What has been merged ends where the later of the two ends. -/
theorem stop_union {r q : Range} (hr : d.IsSpan withBreak r) (hq : d.IsSpan withBreak q) :
    (r.union d q).stop = max r.stop q.stop := by
  cases hr with
  | chars hr => rw [union_of_lines_eq_none (.inl hr.lines) hr.le]
  | @lines first last hle hlast =>
    cases hq with
    | chars hq => rw [union_of_lines_eq_none (.inr hq.lines) (d.fits_linesSpan _ _ _).le]
    | @lines first' last' hle' hlast' =>
      rw [union_linesSpan hle hlast hle' hlast']
      rcases Nat.le_total last last' with h | h
      · rw [Position.max_eq_right (stop_linesSpan_mono hle hlast hle' hlast' h),
          Nat.max_eq_right h, stop_linesSpan (by omega) hlast', stop_linesSpan hle' hlast']
      · rw [Position.max_eq_left (stop_linesSpan_mono hle' hlast' hle hlast h),
          Nat.max_eq_left h, stop_linesSpan (by omega) hlast, stop_linesSpan hle hlast]

/-- What has been merged stands for lines only if both do, and then for the lines of both. -/
theorem lines_union {r q : Range} (hr : d.IsSpan withBreak r) (hq : d.IsSpan withBreak q)
    {m : LineSpan} (hm : (r.union d q).lines = some m) :
    ∃ l l', r.lines = some l ∧ q.lines = some l' ∧
      m = ⟨min l.first l'.first, max l.last l'.last⟩ := by
  cases hr with
  | chars hr =>
    rw [union_of_lines_eq_none (.inl hr.lines) hr.le] at hm
    cases hm
  | lines hle hlast =>
    cases hq with
    | chars hq =>
      rw [union_of_lines_eq_none (.inr hq.lines) (d.fits_linesSpan _ _ _).le] at hm
      cases hm
    | lines hle' hlast' =>
      rw [union_linesSpan hle hlast hle' hlast', lines_linesSpan_of_le (by omega) (by omega)] at hm
      cases hm
      exact ⟨_, _, lines_linesSpan_of_le hle hlast, lines_linesSpan_of_le hle' hlast', rfl⟩

/-- The range `r` ends within `q`, and if `q` stands for lines, then `r` stands for some of them. -/
structure Covers (q r : Range) : Prop where
  /-- The end. -/
  stop : r.stop ≤ q.stop
  /-- The lines. -/
  lines : ∀ m, q.lines = some m → ∃ l, r.lines = some l ∧ m.first ≤ l.first ∧ l.last ≤ m.last

theorem Covers.refl (r : Range) : r.Covers r :=
  ⟨Position.le_refl _, fun m hm => ⟨m, hm, Nat.le_refl _, Nat.le_refl _⟩⟩

theorem Covers.trans {p q r : Range} (h : p.Covers q) (h' : q.Covers r) : p.Covers r := by
  refine ⟨Position.le_trans h'.stop h.stop, fun m hm => ?_⟩
  obtain ⟨l, hl, hfirst, hlast⟩ := h.lines m hm
  obtain ⟨l', hl', hfirst', hlast'⟩ := h'.lines l hl
  exact ⟨l', hl', Nat.le_trans hfirst hfirst', Nat.le_trans hlast' hlast⟩

theorem covers_union_left {r q : Range} (hr : d.IsSpan withBreak r) (hq : d.IsSpan withBreak q) :
    (r.union d q).Covers r := by
  refine ⟨stop_union hr hq ▸ Position.le_max_left _ _, fun m hm => ?_⟩
  obtain ⟨l, l', hl, -, rfl⟩ := lines_union hr hq hm
  exact ⟨l, hl, Nat.min_le_left _ _, Nat.le_max_left _ _⟩

theorem covers_union_right {r q : Range} (hr : d.IsSpan withBreak r)
    (hq : d.IsSpan withBreak q) : (r.union d q).Covers q := by
  refine ⟨stop_union hr hq ▸ Position.le_max_right _ _, fun m hm => ?_⟩
  obtain ⟨l, l', -, hl', rfl⟩ := lines_union hr hq hm
  exact ⟨l', hl', Nat.min_le_right _ _, Nat.le_max_right _ _⟩

end Range

/-! ### What a text object hands over -/

/-- The range holds the lines, and besides them no more than one line break: the one behind them, or
if no line follows the one in front of them. -/
structure Document.HoldsLines (d : Document) (r : Range) (l : LineSpan) : Prop where
  /-- The lines are in order. -/
  ordered : l.first ≤ l.last
  /-- They are lines of the document. -/
  last_le : l.last ≤ d.lastLine
  /-- The range holds them. -/
  encloses : r.encloses (.between ⟨l.first, 0⟩ (d.lineEnd l.last)) = true
  /-- It begins with them or with the break in front. -/
  start : r.start = ⟨l.first, 0⟩ ∨
    (l.last = d.lastLine ∧ 0 < l.first) ∧ r.start = d.lineEnd (l.first - 1)
  /-- It ends with them or with the break behind. -/
  stop : r.stop = d.lineEnd l.last ∨ l.last < d.lastLine ∧ r.stop = ⟨l.last + 1, 0⟩

theorem Document.holdsLines_linesSpan {d : Document} {first last : Nat} (hle : first ≤ last)
    (hlast : last ≤ d.lastLine) (withBreak : Bool) :
    d.HoldsLines (d.linesSpan first last withBreak) ⟨first, last⟩ := by
  have hline : (⟨first, 0⟩ : Position) ≤ d.lineEnd last := by
    simp only [Position.le_def, lineEnd]; omega
  have hstop : d.lineEnd last ≤ (d.linesSpan first last withBreak).stop := by
    rw [stop_linesSpan hle hlast]
    split
    · exact .inl (Nat.lt_succ_self last)
    · exact Position.le_refl _
  refine ⟨hle, hlast, ?_, ?_, ?_⟩
  · simp only [Range.encloses, Range.between_of_le hline, Bool.and_eq_true, decide_eq_true_eq]
    exact ⟨start_linesSpan_le hle hlast, hstop⟩
  · rw [start_linesSpan hle hlast]
    split
    · exact .inr ⟨And.right ‹_›, rfl⟩
    · exact .inl rfl
  · rw [stop_linesSpan hle hlast]
    split
    · exact .inr ⟨And.right ‹_›, rfl⟩
    · exact .inl rfl

theorem Document.checkInBounds_of_inBounds {d : Document} {p : Position} (h : d.InBounds p) :
    d.checkInBounds p = .ok () :=
  if_pos h

/-- **What a text object hands over can be edited.** Wherever the cursor is, inside the text or
not, and whatever the object is named for: a range that any text object finds has its ends in order
and in the text, and if it stands for lines, then these are lines of the text and it holds them. -/
theorem TextObject.range_of_compute (o : TextObject) (d : Document) (u : Purpose) (p : Position)
    (keys : List Key) (res : ObjectRange) (rest : List Key)
    (h : o.compute d u p keys = .some res rest) :
    res.range.start ≤ res.range.stop ∧
      d.checkInBounds res.range.start = .ok () ∧ d.checkInBounds res.range.stop = .ok () ∧
      ∀ l, res.range.lines = some l → d.HoldsLines res.range l := by
  have hspan := isSpan_of_compute h
  have hfits := hspan.fits
  refine ⟨hfits.le, Document.checkInBounds_of_inBounds hfits.start,
    Document.checkInBounds_of_inBounds hfits.stop, fun l hl => ?_⟩
  generalize res.range = r at hspan hl
  cases hspan with
  | chars hr => exact absurd (hl.symm.trans hr.lines) nofun
  | @lines first last hle hlast =>
    rw [Document.lines_linesSpan_of_le hle hlast] at hl
    cases hl
    exact Document.holdsLines_linesSpan hle hlast _

/-- The last paragraph with the empty line before it, from a cursor far outside the text: the range
begins with the break in front of both lines. -/
theorem TextObject.range_of_compute_outside :
    let d := Document.ofText "a\n\nb".toList
    let o := structural "paragraph" (.literal [.char 'a', .char 'p']) .paragraph true
    let r : Range := ⟨⟨0, 1⟩, ⟨2, 1⟩, some ⟨1, 2⟩⟩
    o ∈ defaults ∧
      o.compute d ⟨some .delete, none⟩ ⟨9, 9⟩ [.char 'a', .char 'p'] = .some ⟨r, none⟩ [] ∧
      r.start ≤ r.stop ∧ d.checkInBounds r.start = .ok () ∧ d.checkInBounds r.stop = .ok () ∧
      ∀ l, r.lines = some l → d.HoldsLines r l := by
  intro d o r
  have hfound : o.compute d ⟨some .delete, none⟩ ⟨9, 9⟩ [.char 'a', .char 'p'] =
      .some ⟨r, none⟩ [] := by
    decide +kernel
  refine ⟨?_, hfound, range_of_compute o d _ _ _ _ _ hfound⟩
  simp [o, defaults, structures, family]

end ModalEdit
