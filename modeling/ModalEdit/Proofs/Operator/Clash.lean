import ModalEdit.Proofs.Operator.Merge

/-!
# Merged ranges that overlap

Whole lines that take a line break take the one in front of them when they reach the last line. When
other lines are merged with such a range, the beginning moves back by that one break, and if a range
before ends with the same break, it is taken twice.

`Document.Clash` says for which ranges this happens: with a clash merged ranges do overlap
(`Document.Clash.exists_overlap`), and without one they do not. They are sorted in any case
(`Document.pairwise_mergeRanges`). It takes three ranges (`Document.Clash.three_le_length`).
-/

namespace ModalEdit.Document

variable {d : Document} {withBreak : Bool} {rs : List Range}

/-- The ranges hang together from the start of the line `c`, not the first one, to the end of the
document, where one of them takes the break in front of its lines. One begins with the line `c`, and
another ends right there. -/
structure Clash (d : Document) (rs : List Range) (c : Nat) : Prop where
  /-- A range ends at the start of the line. -/
  before : ∃ r ∈ rs, r.start < ⟨c, 0⟩ ∧ r.stop = ⟨c, 0⟩
  /-- No range begins before the line and goes on into it. -/
  apart : ∀ r ∈ rs, r.start < ⟨c, 0⟩ → r.stop ≤ ⟨c, 0⟩
  /-- A range begins at the start of the line, which is the first line it stands for. -/
  here : ∃ r ∈ rs, r.start = ⟨c, 0⟩ ∧ ∃ l, r.lines = some l ∧ l.first = c
  /-- Every place from there on to the end of the document lies inside a range. -/
  linked : ∀ p, d.InBounds p → ⟨c, 0⟩ < p → p < d.endPosition → ∃ r ∈ rs, r.start < p ∧ p < r.stop
  /-- A range takes the break in front of its lines. -/
  pulled : ∃ r ∈ rs, ∃ l, r.lines = some l ∧ r.start.line < l.first

/-! ### Ranges that take the break in front -/

/-- All ranges are whole lines with a break. -/
def Whole (d : Document) (rs : List Range) : Prop :=
  ∀ r ∈ rs, ∃ first last, first ≤ last ∧ last ≤ d.lastLine ∧ r = d.linesSpan first last true

/-- Once a range reaches the last line with a break, all are whole lines. -/
theorem Regular.whole (hrs : d.Regular true rs) {r : Range} (hr : r ∈ rs) {l : LineSpan}
    (hl : r.lines = some l) (hlast : l.last = d.lastLine) : d.Whole rs := by
  intro r' hr'
  have hlines : ∀ r ∈ rs, r.lines ≠ none := (hrs.unmixed rfl).resolve_right fun h =>
    absurd (h r hr l hl) (by omega)
  have hspan := hrs.span r' hr'
  cases hspan with
  | chars h => exact absurd h.lines (hlines r' hr')
  | lines hle hlast => exact ⟨_, _, hle, hlast, rfl⟩

/-- A range that begins before its first line reaches the last line. -/
theorem IsSpan.of_start_lt {r : Range} (hr : d.IsSpan withBreak r) {l : LineSpan}
    (hl : r.lines = some l) (hlt : r.start.line < l.first) :
    withBreak = true ∧ l.last = d.lastLine := by
  cases hr with
  | chars h => simp [h.lines] at hl
  | lines hle hlast =>
    rw [lines_linesSpan_of_le hle hlast] at hl
    cases hl
    rw [start_linesSpan hle hlast] at hlt
    split at hlt
    · rename_i h
      exact ⟨h.1, h.2.1⟩
    · exact absurd hlt (Nat.lt_irrefl _)

/-- Whole lines with a break hold something if there is more than one line. -/
theorem start_lt_stop_linesSpan {first last : Nat} (hle : first ≤ last) (hlast : last ≤ d.lastLine)
    (hpos : 0 < d.lastLine) :
    (d.linesSpan first last true).start < (d.linesSpan first last true).stop := by
  rw [start_linesSpan hle hlast, stop_linesSpan hle hlast]
  simp only [true_and]
  split <;> split <;> simp only [Position.lt_def, lineEnd] <;> omega

theorem Whole.start_lt_stop (hrs : d.Whole rs) (hpos : 0 < d.lastLine) {r : Range} (hr : r ∈ rs) :
    r.start < r.stop := by
  obtain ⟨first, last, hle, hlast, rfl⟩ := hrs r hr
  exact start_lt_stop_linesSpan hle hlast hpos

theorem le_lineEnd_of_lt {p : Position} {c : Nat} (hp : d.InBounds p) (h : p < ⟨c, 0⟩) :
    p ≤ d.lineEnd (c - 1) := by
  obtain ⟨line, col⟩ := p
  have hcol : col ≤ d.lineLen line := hp.2
  simp only [Position.lt_def] at h
  rcases Nat.lt_or_eq_of_le (show line ≤ c - 1 by omega) with hline | rfl
  · exact .inl hline
  · exact .inr ⟨rfl, hcol⟩

/-- A merged range that does not begin with its head is whole lines up to the last one, with the
break in front of them. -/
structure Pulled (d : Document) (rs : List Range) (g : Group) (c : Nat) : Prop where
  /-- There is a line before. -/
  pos : 0 < c
  /-- The head is the start of a line. -/
  head : g.head = ⟨c, 0⟩
  /-- The merged range. -/
  range : g.range = d.linesSpan c d.lastLine true
  /-- The first part begins with its first line. -/
  here : ∃ l, c ≤ l ∧ l < d.lastLine ∧ d.linesSpan c l true ∈ rs
  /-- A part takes the break in front of its lines. -/
  last : ∃ f, c ≤ f ∧ f ≤ d.lastLine ∧ d.linesSpan f d.lastLine true ∈ rs

theorem Gathers.pulled {g : Group} (hg : d.Gathers withBreak rs g) (h : g.range.start ≠ g.head) :
    withBreak = true ∧ ∃ c, d.Pulled rs g c := by
  obtain ⟨head, range⟩ := g
  have hform := hg.form
  dsimp only at h hform
  cases hform with
  | chars _ hstart => exact absurd hstart h
  | @lines first last first' last' h₁ h₂ h₃ h₄ hlast hmem hstart hmem' =>
    -- The merged range takes the break in front and its first part does not, as it ends earlier.
    rw [start_linesSpan (Nat.le_trans h₁ h₂) hlast] at h
    have hstart' := hstart
    rw [start_linesSpan h₁ (Nat.le_trans h₂ hlast)] at hstart'
    split at h
    · rename_i hbreak
      obtain ⟨rfl, rfl, hpos⟩ := hbreak
      rcases Nat.lt_or_eq_of_le h₂ with hlt | rfl
      · rw [if_neg (by omega)] at hstart'
        exact ⟨rfl, first, hpos, hstart'.symm, rfl, ⟨last, h₁, hlt, hmem⟩, ⟨first', h₃, h₄, hmem'⟩⟩
      · rw [if_pos ⟨rfl, rfl, hpos⟩] at hstart'
        exact absurd hstart' h
    · rename_i hbreak
      rw [if_neg fun hb => hbreak ⟨hb.1, by omega, hb.2.2⟩] at hstart'
      exact absurd hstart' h

theorem Pulled.whole (hrs : d.Regular true rs) {g : Group} {c : Nat} (hg : d.Pulled rs g c) :
    d.Whole rs := by
  obtain ⟨f, -, hle, hmem⟩ := hg.last
  exact hrs.whole hmem (lines_linesSpan_of_le hle (Nat.le_refl _)) rfl

theorem Pulled.lt_lastLine {g : Group} {c : Nat} (hg : d.Pulled rs g c) : c < d.lastLine := by
  obtain ⟨l, hle, hlt, -⟩ := hg.here
  exact Nat.lt_of_le_of_lt hle hlt

theorem Pulled.start {g : Group} {c : Nat} (hg : d.Pulled rs g c) :
    g.range.start = d.lineEnd (c - 1) := by
  rw [hg.range, start_linesSpan (Nat.le_of_lt hg.lt_lastLine) (Nat.le_refl _),
    if_pos ⟨rfl, rfl, hg.pos⟩]

theorem Pulled.stop {g : Group} {c : Nat} (hg : d.Pulled rs g c) :
    g.range.stop = d.endPosition := by
  rw [hg.range, stop_linesSpan_lastLine (Nat.le_of_lt hg.lt_lastLine)]

/-- No merged range begins behind its head. -/
theorem Gathers.start_le_head {g : Group} (hg : d.Gathers withBreak rs g) :
    g.range.start ≤ g.head := by
  by_cases h : g.range.start = g.head
  · exact h ▸ Position.le_refl _
  · obtain ⟨-, c, hc⟩ := hg.pulled h
    rw [hc.start, hc.head]
    exact .inl (by have := hc.pos; simp only [lineEnd]; omega)

/-! ### Overlaps and clashes -/

/-- A range that ends with the break that a merged range takes in front clashes with it. -/
theorem Pulled.clash (hrs : d.Regular true rs) {g : Group} {c : Nat} (hmem : g ∈ d.groups rs)
    (hg : d.Pulled rs g c) {r : Range} (hr : r ∈ rs) (hstop : r.stop = ⟨c, 0⟩) : d.Clash rs c := by
  have hgathers := gathers_of_mem_groups hrs g hmem
  have hlast : ⟨c, 0⟩ < d.endPosition := .inl hg.lt_lastLine
  refine ⟨⟨r, hr, ?_, hstop⟩, fun r' hr' hlt => ?_, ?_, fun p _ hp hp' => ?_, ?_⟩
  · exact hstop ▸ (hg.whole hrs).start_lt_stop (Nat.lt_trans hg.pos hg.lt_lastLine) hr
  · -- A range that begins before the line belongs to another group, which ends before this one.
    obtain ⟨g', hg', hhead, hcovers⟩ := exists_group_of_mem hrs hr'
    have hhead' : g'.head < ⟨c, 0⟩ := Position.lt_of_le_of_lt hhead hlt
    have hne : g' ≠ g := by
      rintro rfl
      rw [hg.head] at hhead'
      exact Position.lt_irrefl _ hhead'
    rcases apart_of_mem_groups hg' hmem hne with h | h
    · exact Position.le_trans hcovers.stop (hg.head ▸ h)
    · rw [hg.stop] at h
      exact absurd (Position.lt_of_lt_of_le hlast (Position.le_trans h (Position.le_of_lt hhead')))
        (Position.lt_irrefl _)
  · obtain ⟨l, hle, hlt, hmem⟩ := hg.here
    refine ⟨_, hmem, ?_, _, lines_linesSpan_of_le hle (Nat.le_of_lt hlt), rfl⟩
    exact start_linesSpan_of_lt hle hlt
  · exact hgathers.linked p (hg.head.symm ▸ hp) (hg.stop.symm ▸ hp')
  · obtain ⟨f, hle, hlt, hmem⟩ := hg.last
    refine ⟨_, hmem, _, lines_linesSpan_of_le hlt (Nat.le_refl _), ?_⟩
    have := hg.pos
    rw [start_linesSpan hlt (Nat.le_refl _), if_pos ⟨rfl, rfl, by omega⟩]
    simp only [lineEnd]
    omega

/-- **Merged ranges are sorted, and they do not overlap unless there is a clash.** -/
theorem pairwise_mergeRanges (hrs : d.Regular withBreak rs) :
    (d.mergeRanges rs).Pairwise fun q q' =>
      q.start ≤ q'.start ∧ (q.stop ≤ q'.start ∨ ∃ c, d.Clash rs c) := by
  rw [← map_range_groups, List.pairwise_map]
  refine (pairwise_groups rs).imp_of_mem fun {g g'} hg hg' hstop => ?_
  have hgathers := gathers_of_mem_groups hrs g hg
  have hgathers' := gathers_of_mem_groups hrs g' hg'
  by_cases hstart : g'.range.start = g'.head
  · rw [hstart]
    exact ⟨Position.le_trans hgathers.fits.le hstop, .inl hstop⟩
  · obtain ⟨rfl, c, hc⟩ := hgathers'.pulled hstart
    rw [hc.start]
    rw [hc.head] at hstop
    rcases Position.lt_or_eq_of_le hstop with hlt | heq
    · have hle := le_lineEnd_of_lt hgathers.fits.stop hlt
      exact ⟨Position.le_trans hgathers.fits.le hle, .inl hle⟩
    · -- The group before ends with the break that this one takes in front.
      obtain ⟨r, hr, hrstop⟩ := hgathers.stop
      obtain ⟨r', hr', hhead, hrstop'⟩ := hgathers.head
      have hlt : g.range.start < ⟨c, 0⟩ := by
        refine Position.lt_of_le_of_lt hgathers.start_le_head (hhead ▸ ?_)
        refine Position.lt_of_lt_of_le ?_ (heq ▸ hrstop')
        exact (hc.whole hrs).start_lt_stop (Nat.lt_trans hc.pos hc.lt_lastLine) hr'
      have hclash := hc.clash hrs hg' hr (hrstop.trans heq)
      exact ⟨le_lineEnd_of_lt hgathers.fits.start hlt, .inr ⟨c, hclash⟩⟩

namespace Clash

variable {c : Nat}

theorem pos (h : d.Clash rs c) : 0 < c := by
  obtain ⟨r, -, hlt, -⟩ := h.before
  simp only [Position.lt_def] at hlt
  omega

/-- Ranges that clash are whole lines with a break. -/
theorem whole (hrs : d.Regular withBreak rs) (h : d.Clash rs c) :
    withBreak = true ∧ d.Whole rs := by
  obtain ⟨r, hr, l, hl, hlt⟩ := h.pulled
  obtain ⟨rfl, hlast⟩ := (hrs.span r hr).of_start_lt hl hlt
  exact ⟨rfl, hrs.whole hr hl hlast⟩

/-- The range that begins with the line `c` does not reach the last line. -/
theorem exists_here (hrs : d.Whole rs) (h : d.Clash rs c) :
    ∃ l, c ≤ l ∧ l < d.lastLine ∧ d.linesSpan c l true ∈ rs := by
  obtain ⟨r, hr, hstart, l, hl, hfirst⟩ := h.here
  obtain ⟨first, last, hle, hlast, rfl⟩ := hrs r hr
  rw [lines_linesSpan_of_le hle hlast] at hl
  cases hl
  obtain rfl : first = c := hfirst
  refine ⟨last, hle, Nat.lt_of_le_of_ne hlast fun heq => ?_, hr⟩
  have := h.pos
  rw [start_linesSpan hle hlast, if_pos ⟨rfl, heq, h.pos⟩] at hstart
  simp only [lineEnd, Position.ext_iff'] at hstart
  omega

theorem exists_last (hrs : d.Whole rs) (h : d.Clash rs c) :
    ∃ f, f ≤ d.lastLine ∧ d.linesSpan f d.lastLine true ∈ rs := by
  obtain ⟨r, hr, l, hl, hlt⟩ := h.pulled
  obtain ⟨first, last, hle, hlast, rfl⟩ := hrs r hr
  obtain ⟨-, hend⟩ := IsSpan.of_start_lt (.lines hle hlast) hl hlt
  rw [lines_linesSpan_of_le hle hlast] at hl
  cases hl
  obtain rfl : last = d.lastLine := hend
  exact ⟨first, hle, hr⟩

/-- The head of the group that holds the range beginning with the line `c`. -/
theorem head_eq (h : d.Clash rs c) {g : Group} (hg : d.Gathers withBreak rs g)
    (hle : g.head ≤ ⟨c, 0⟩) (hlt : ⟨c, 0⟩ < g.range.stop) : g.head = ⟨c, 0⟩ := by
  refine (Position.lt_or_eq_of_le hle).resolve_left fun hhead => ?_
  obtain ⟨r, hr, hstart, hstop⟩ := hg.linked _ hhead hlt
  exact Position.lt_irrefl _ (Position.lt_of_lt_of_le hstop (h.apart r hr hstart))

/-- That group goes on to the end of the document. -/
theorem stop_eq (hrs : d.Regular withBreak rs) (h : d.Clash rs c) {g : Group}
    (hmem : g ∈ d.groups rs) (hhead : g.head ≤ ⟨c, 0⟩) (hlt : ⟨c, 0⟩ < g.range.stop) :
    g.range.stop = d.endPosition := by
  have hfits := (gathers_of_mem_groups hrs g hmem).fits
  refine (Position.lt_or_eq_of_le (le_endPosition hfits.stop)).resolve_left fun hend => ?_
  -- A range goes on behind the end of the group, and so does its group.
  obtain ⟨r, hr, hstart, hstop⟩ := h.linked _ hfits.stop hlt hend
  obtain ⟨g', hmem', hhead', hcovers⟩ := exists_group_of_mem hrs hr
  have hbefore : g'.head < g.range.stop := Position.lt_of_le_of_lt hhead' hstart
  have hbehind : g.range.stop < g'.range.stop := Position.lt_of_lt_of_le hstop hcovers.stop
  have hne : g ≠ g' := by
    rintro rfl
    exact Position.lt_irrefl _ hbehind
  rcases apart_of_mem_groups hmem hmem' hne with hle | hle
  · exact Position.lt_irrefl _ (Position.lt_of_lt_of_le hbefore hle)
  · exact Position.lt_irrefl _ (Position.lt_of_lt_of_le hbehind
      (Position.le_trans hle (Position.le_of_lt (Position.lt_of_le_of_lt hhead hlt))))

/-- The group that goes on to the end covers every range that does: such a range begins before the
end, which no other group reaches. -/
theorem covers_of_stop_eq (hrs : d.Regular true rs) (hwhole : d.Whole rs) {g : Group}
    (hmem : g ∈ d.groups rs) (hend : g.range.stop = d.endPosition) (hhead : g.head < d.endPosition)
    {f : Nat} (hf : f ≤ d.lastLine) (hr : d.linesSpan f d.lastLine true ∈ rs)
    (hpos : 0 < d.lastLine) : g.range.Covers (d.linesSpan f d.lastLine true) := by
  have hstop : (d.linesSpan f d.lastLine true).stop = d.endPosition := stop_linesSpan_lastLine hf
  have hstart := hwhole.start_lt_stop hpos hr
  obtain ⟨g', hmem', hhead', hcovers⟩ := exists_group_of_mem hrs hr
  by_cases heq : g = g'
  · exact heq ▸ hcovers
  · rw [hstop] at hstart
    rcases apart_of_mem_groups hmem hmem' heq with hle | hle
    · exact absurd (Position.lt_of_lt_of_le (Position.lt_of_le_of_lt hhead' hstart) (hend ▸ hle))
        (Position.lt_irrefl _)
    · exact absurd (Position.lt_of_lt_of_le hhead (Position.le_trans (hstop ▸ hcovers.stop) hle))
        (Position.lt_irrefl _)

/-- **A clash makes a merged range begin before its head.** -/
theorem exists_pulled (hrs : d.Regular withBreak rs) (h : d.Clash rs c) :
    ∃ g ∈ d.groups rs, d.Pulled rs g c := by
  obtain ⟨rfl, hwhole⟩ := h.whole hrs
  obtain ⟨l, hle, hlt, hhere⟩ := h.exists_here hwhole
  obtain ⟨f, hf, hlast⟩ := h.exists_last hwhole
  obtain ⟨g, hmem, hhead, hcovers⟩ := exists_group_of_mem hrs hhere
  have hgathers := gathers_of_mem_groups hrs g hmem
  rw [start_linesSpan_of_lt hle hlt] at hhead
  have hstop : ⟨c, 0⟩ < g.range.stop := by
    refine Position.lt_of_lt_of_le ?_ hcovers.stop
    rw [stop_linesSpan_of_lt hle hlt]
    exact .inl (Nat.lt_succ_of_le hle)
  have hend := h.stop_eq hrs hmem hhead hstop
  replace hhead := h.head_eq hgathers hhead hstop
  have hlastCovers := covers_of_stop_eq hrs hwhole hmem hend (hhead ▸ .inl (by
    simp only [endPosition, lineEnd]; omega)) hf hlast (by omega)
  -- The group covers lines from `c` on and the last line, so it is the lines from `c` to the last.
  obtain ⟨head, range⟩ := g
  have hform := hgathers.form
  dsimp only at hform hhead hcovers hlastCovers
  cases hform with
  | @chars _ r _ _ hr hnone =>
    obtain ⟨first, last, hle', hlast', rfl⟩ := hwhole r hr
    rw [lines_linesSpan_of_le hle' hlast'] at hnone
    cases hnone
  | @lines first last first' last' h₁ h₂ h₃ h₄ hbound hpart hstart hpart' =>
    have hlines : (d.linesSpan first last' true).lines = some ⟨first, last'⟩ :=
      lines_linesSpan_of_le (Nat.le_trans h₁ h₂) hbound
    obtain ⟨m, hm, hfirst, -⟩ := hcovers.lines _ hlines
    rw [lines_linesSpan_of_le hle (Nat.le_of_lt hlt)] at hm
    cases hm
    obtain ⟨m, hm, hfirst', hlast'⟩ := hlastCovers.lines _ hlines
    rw [lines_linesSpan_of_le hf (Nat.le_refl _)] at hm
    cases hm
    obtain rfl : last' = d.lastLine := Nat.le_antisymm hbound hlast'
    obtain rfl : first = c := by
      rw [start_linesSpan h₁ (Nat.le_trans h₂ hbound), hhead] at hstart
      split at hstart <;> simp only [lineEnd, Position.ext_iff'] at hstart hfirst <;> omega
    exact ⟨_, hmem, h.pos, hhead, rfl, ⟨l, hle, hlt, hhere⟩, ⟨f, hfirst', hf, hlast⟩⟩

/-- **Ranges that clash are merged to ranges that overlap.** -/
theorem exists_overlap (hrs : d.Regular withBreak rs) (h : d.Clash rs c) :
    ∃ q ∈ d.mergeRanges rs, ∃ q' ∈ d.mergeRanges rs,
      q.start < q.stop ∧ q'.start < q.stop ∧ q.stop < q'.stop := by
  obtain ⟨g', hmem', hg'⟩ := h.exists_pulled hrs
  obtain ⟨r, hr, hstart, hstop⟩ := h.before
  obtain ⟨g, hmem, hhead, hcovers⟩ := exists_group_of_mem hrs hr
  have hbefore : g.head < ⟨c, 0⟩ := Position.lt_of_le_of_lt hhead hstart
  have hend : ⟨c, 0⟩ < d.endPosition := .inl hg'.lt_lastLine
  have hne : g ≠ g' := by
    rintro rfl
    rw [hg'.head] at hbefore
    exact Position.lt_irrefl _ hbefore
  -- The group of the range before the line ends right at the line, which is behind the break.
  have hgstop : g.range.stop = ⟨c, 0⟩ := by
    refine Position.le_antisymm ?_ (hstop ▸ hcovers.stop)
    rcases apart_of_mem_groups hmem hmem' hne with hle | hle
    · exact hg'.head ▸ hle
    · rw [hg'.stop] at hle
      have hle := Position.le_trans hle (Position.le_of_lt hbefore)
      exact absurd (Position.lt_of_lt_of_le hend hle) (Position.lt_irrefl _)
  have hmerged {k : Group} (hk : k ∈ d.groups rs) : k.range ∈ d.mergeRanges rs :=
    map_range_groups (d := d) rs ▸ List.mem_map_of_mem hk
  refine ⟨g.range, hmerged hmem, g'.range, hmerged hmem', ?_, ?_, ?_⟩
  · rw [hgstop]
    exact Position.lt_of_le_of_lt (gathers_of_mem_groups hrs g hmem).start_le_head hbefore
  · rw [hgstop, hg'.start]
    exact .inl (by have := h.pos; simp only [lineEnd]; omega)
  · rw [hgstop, hg'.stop]
    exact hend

/-- **It takes three ranges to clash**: one that ends before the line `c`, one that begins with it
and one that takes the break in front of its lines. -/
theorem three_le_length (hrs : d.Regular withBreak rs) (h : d.Clash rs c) : 3 ≤ rs.length := by
  obtain ⟨-, hwhole⟩ := h.whole hrs
  obtain ⟨r₀, hr₀, hlt₀, hstop₀⟩ := h.before
  obtain ⟨l, hle, hlt, hr₁⟩ := h.exists_here hwhole
  obtain ⟨f, hf, hr₂⟩ := h.exists_last hwhole
  have hlines₁ : (d.linesSpan c l true).lines = some ⟨c, l⟩ :=
    lines_linesSpan_of_le hle (Nat.le_of_lt hlt)
  have hlines₂ : (d.linesSpan f d.lastLine true).lines = some ⟨f, d.lastLine⟩ :=
    lines_linesSpan_of_le hf (Nat.le_refl _)
  -- The first ends at the line, the second begins with it and the third has another last line.
  have hne₀₁ : r₀ ≠ d.linesSpan c l true := by
    rintro rfl
    rw [stop_linesSpan_of_lt hle hlt, Position.ext_iff'] at hstop₀
    simp only at hstop₀
    omega
  have hne₀₂ : r₀ ≠ d.linesSpan f d.lastLine true := by
    rintro rfl
    rw [stop_linesSpan_lastLine hf, Position.ext_iff'] at hstop₀
    simp only [endPosition, lineEnd] at hstop₀
    omega
  have hne₁₂ : d.linesSpan c l true ≠ d.linesSpan f d.lastLine true := by
    intro heq
    rw [heq, hlines₂] at hlines₁
    cases hlines₁
    exact absurd hlt (Nat.lt_irrefl _)
  have hnodup : [r₀, d.linesSpan c l true, d.linesSpan f d.lastLine true].Nodup := by
    simp [hne₀₁, hne₀₂, hne₁₂]
  exact hnodup.length_le_of_subset (by simp [hr₀, hr₁, hr₂])

end Clash

end ModalEdit.Document
