import ModalEdit.Proofs.Operator.Origin
import ModalEdit.Proofs.Operator.Ranges
import ModalEdit.Proofs.Span.Clamped

/-!
# Where a text object finds nothing

A walk of characters to the start of the line after or before an empty line stands for that line,
and for a change that range holds nothing. From another cursor the same walk can lead nowhere and
stand for no characters at the same place. That takes a walk backwards which stays where it is, so
the place is the start of the document (`Walk.atOrigin_of_span`).

It follows that the ranges of an operator are orderly (`OperatorKind.orderly_of_targetsOf`).
-/

namespace ModalEdit

variable {d : Document} {u : Purpose} {p p' : Position} {a a' : Arrival}

/-! ### Walks forwards and backwards -/

namespace Document

/-- A word walk forwards does not lead to an earlier line. -/
theorem line_le_wordForward (kind : WordKind) (p : Position) :
    (d.clamp p).line ≤ (d.wordForward kind p).line := by
  simp only [wordForward]
  split
  · exact Nat.le_refl _
  · cases h : (d.linesAfter (d.clamp p).line).findSome? _ with
    | none =>
      have hle := Position.le_max_right d.endPosition (d.clamp p)
      rw [Position.le_def] at hle
      rw [Option.getD_none]
      omega
    | some q =>
      obtain ⟨i, hi, hq⟩ := List.exists_of_findSome?_eq_some h
      obtain ⟨k, -, rfl⟩ := List.mem_range'.1 hi
      have hline : q.line = (d.clamp p).line + 1 + 1 * k := by
        split at hq
        · cases hq
          rfl
        · obtain ⟨r, -, rfl⟩ := Option.map_eq_some_iff.1 hq
          rfl
      rw [Option.getD_some]
      omega

/-- A word walk backwards leaves the line from its start. -/
theorem wordBackward_line_lt (kind : WordKind) (hcol : (d.clamp p).col = 0)
    (hline : 0 < (d.clamp p).line) : (d.wordBackward kind p).line < (d.clamp p).line := by
  simp only [wordBackward]
  split
  · -- No word begins before the start of the line.
    rename_i r hr
    have hlt := List.find?_some hr
    simp [hcol] at hlt
  · cases h : (linesBefore (d.clamp p).line).findSome? _ with
    | none => exact hline
    | some q =>
      obtain ⟨i, hi, hq⟩ := List.exists_of_findSome?_eq_some h
      have hlt := mem_linesBefore.1 hi
      split at hq
      · cases hq
        exact hlt
      · obtain ⟨r, -, rfl⟩ := Option.map_eq_some_iff.1 hq
        exact hlt

/-- A paragraph walk forwards does not lead to an earlier line. -/
theorem line_le_paragraphForward (p : Position) :
    (d.clamp p).line ≤ (d.paragraphForward p).line := by
  have hline := (d.inBounds_clamp p).line_le
  simp only [paragraphForward]
  split
  · exact hline
  · generalize hahead : d.blankLines.drop (d.clamp p).line = ahead
    have hlen : ahead.length = d.lineCount - (d.clamp p).line := by
      rw [← hahead, List.length_drop, length_blankLines]
    have hrest := length_behindParagraph_le ahead
    have hlast := d.lastLine_add_one
    dsimp only
    omega

/-- A paragraph walk backwards leaves an empty line. -/
theorem paragraphBackward_line_lt (hlen : d.lineLen (d.clamp p).line = 0)
    (hline : 0 < (d.clamp p).line) : (d.paragraphBackward p).line < (d.clamp p).line := by
  have hlt : (d.clamp p).line < d.blankLines.length := length_blankLines ▸ d.clamp_line_lt p
  have hblank : d.blankLines[(d.clamp p).line] = true := by
    have hall : (d.content (d.clamp p).line).all isBlank = true := by
      rw [List.length_eq_zero_iff.1 hlen]
      rfl
    rw [content, line?, List.getElem?_eq_getElem (d.clamp_line_lt p), Option.getD_some] at hall
    exact (List.getElem_map _).trans hall
  simp only [paragraphBackward]
  rw [List.take_succ_eq_append_getElem hlt, List.reverse_append, hblank]
  have hrest := length_behindParagraph_le (d.blankLines.take (d.clamp p).line).reverse
  rw [List.length_reverse, List.length_take] at hrest
  change ((List.dropWhile _ (List.dropWhile id (d.blankLines.take _).reverse)).length - 1) < _
  omega

/-! ### What walks stand for -/

/-- Whole lines that hold nothing, found by a walk of characters, are one empty line. The walk leads
from its start to that of the next line, or the other way. -/
theorem walkedSpan_emptyLine {origin : Position} (ho : d.InBounds origin)
    (hlines : (d.walkedSpan u origin a).lines ≠ none)
    (hempty : (d.walkedSpan u origin a).isEmpty = true) :
    a.inclusive = false ∧ ∃ i, d.walkedSpan u origin a = .emptyLine i ∧ d.lineLen i = 0 ∧
      (origin = ⟨i, 0⟩ ∧ d.clamp a.target = ⟨i + 1, 0⟩ ∨
        origin = ⟨i + 1, 0⟩ ∧ d.clamp a.target = ⟨i, 0⟩) := by
  have hpiece := isPiece_between ho (d.inBounds_clamp a.target)
  rcases (isSpan_walkedSpan (u := u) ho a).eq_of_isEmpty hempty with h | ⟨i, hi, hlen⟩
  · exact absurd (congrArg Range.lines h) hlines
  · simp only [walkedSpan] at hi hlines ⊢
    split at hlines
    · exact absurd hpiece.lines hlines
    · rename_i hinclusive
      split at hlines
      · rename_i hcross
        split at hlines
        · rename_i hblank
          rw [if_neg hinclusive, if_pos hcross, if_pos hblank] at hi ⊢
          have hstop := hpiece.stop.line_le
          have hi' := congrArg Range.lines hi
          rw [lines_linesSpan_of_le (by omega) (by omega)] at hi'
          simp only [Range.emptyLine, Option.some.injEq, LineSpan.mk.injEq] at hi'
          refine ⟨Bool.eq_false_iff.2 hinclusive, i, hi, hlen, ?_⟩
          have hcol := firstNonBlank_le (d := d) i
          rw [hlen] at hcol
          rw [hi'.1] at hblank
          -- The ends of the piece are the two line starts.
          have hends : (Range.between origin (d.clamp a.target)).start = ⟨i, 0⟩ ∧
              (Range.between origin (d.clamp a.target)).stop = ⟨i + 1, 0⟩ := by
            simp only [Position.ext_iff']
            omega
          rw [Range.between] at hends
          split at hends
          · exact .inl hends
          · exact .inr hends.symm
        · exact absurd hpiece.lines hlines
      · exact absurd hpiece.lines hlines

/-- A walk that does not take in its last character and stands for no characters at the start of a
line leads nowhere. -/
theorem eq_of_walkedSpan_isEmpty {origin : Position} {i : Nat}
    (hinclusive : a.inclusive = false) (hlines : (d.walkedSpan u origin a).lines = none)
    (hempty : (d.walkedSpan u origin a).isEmpty = true)
    (hstart : (d.walkedSpan u origin a).start = ⟨i, 0⟩) :
    origin = ⟨i, 0⟩ ∧ d.clamp a.target = ⟨i, 0⟩ := by
  have hsame := Range.isEmpty_iff.1 hempty
  simp only [walkedSpan, hinclusive, Bool.false_eq_true, ↓reduceIte] at hlines hsame hstart
  split at hlines
  · rename_i hcross
    split at hlines
    · cases hlines
    · -- The piece begins behind a character, and so not at the start of a line.
      rename_i hblank
      rw [if_pos hcross, if_neg hblank] at hstart
      dsimp only at hstart
      rw [hstart] at hblank
      exact absurd (Nat.zero_le _) hblank
  · rename_i hcross
    rw [if_neg hcross] at hsame hstart
    rw [Range.between] at hsame hstart
    split at hsame
    · rename_i hle
      rw [if_pos hle] at hstart
      exact ⟨hstart, hsame.symm.trans hstart⟩
    · rename_i hle
      rw [if_neg hle] at hstart
      exact ⟨hsame.symm.trans hstart, hstart⟩

end Document

namespace Walk

open Document

variable {s : Surroundings} {key : Option Key} {w : Walk}

/-- The only walks of characters that lead to another line and leave out the last character. -/
def changesLine : Walk → Bool
  | wordForward _ | wordBackward _ | paragraphForward | paragraphBackward => true
  | _ => false

theorem keepsColumn_of_isLinewise (hw : w.isLinewise = false) : w.keepsColumn = false := by
  cases hcolumn : w.keepsColumn with
  | false => rfl
  | true =>
    rw [isLinewise_of_keepsColumn hcolumn] at hw
    cases hw

theorem inBounds_of_take? (hw : w.isLinewise = false) (ha : w.take? d s key p = some a) :
    d.InBounds a.target := by
  have htarget := target_of_take? ha
  rwa [if_neg (by simp [keepsColumn_of_isLinewise hw])] at htarget

/-- All other walks of characters stay in their line or take in the last character. -/
theorem line_of_take? (hw : w.isLinewise = false) (hchanges : w.changesLine = false)
    (ha : w.take? d s key p = some a) (hinclusive : a.inclusive = false) :
    a.target.line = (d.clamp p).line := by
  cases w with
  | up | down | documentStart | documentEnd => cases hw
  | wordForward kind | wordBackward kind | paragraphForward | paragraphBackward => cases hchanges
  | left | right | lineStart | firstNonBlank | lineEnd =>
    cases ha
    rfl
  | wordEndForward kind | wordEndBackward kind =>
    cases ha
    cases hinclusive
  | bracket =>
    obtain ⟨q, -, h⟩ := Option.bind_eq_some_iff.1 ha
    cases h
    cases hinclusive
  | find direction distance =>
    obtain ⟨c, -, h⟩ := Option.bind_eq_some_iff.1 ha
    obtain ⟨q, hq, h⟩ := Option.bind_eq_some_iff.1 h
    cases h
    obtain ⟨i, -, -, rfl⟩ := exists_hit_of_find? hq
    rfl
  | findAgain reverse =>
    obtain ⟨f, -, h⟩ := Option.bind_eq_some_iff.1 ha
    obtain ⟨q, hq, h⟩ := Option.bind_eq_some_iff.1 h
    cases h
    obtain ⟨i, -, -, rfl⟩ := exists_hit_of_find? hq
    rfl

/-- The range of such a walk is what it walks over. -/
theorem span_eq_walkedSpan (hw : w.isLinewise = false) (hchanges : w.changesLine = false) :
    w.span d u p a = d.walkedSpan u (d.clamp p) a := by
  simp only [span, hw, Bool.false_eq_true, ↓reduceIte]
  split
  · cases hchanges
  · rfl

/-- The words of a line that is left go up to its end, so a word walk forwards stands for lines only
if it stays in its line. -/
theorem span_wordForward_of_lines {kind : WordKind}
    (hlines : ((wordForward kind).span d u p a).lines ≠ none) :
    ¬ (d.clamp p).line < a.target.line ∧
      (wordForward kind).span d u p a = d.walkedSpan u (d.clamp p) a := by
  have hstays : ¬ (d.clamp p).line < a.target.line := by
    intro hlt
    apply hlines
    simp only [span, isLinewise, Bool.false_eq_true, ↓reduceIte, hlt]
    split <;> exact lines_between _ _
  refine ⟨hstays, ?_⟩
  simp only [span, isLinewise, Bool.false_eq_true, ↓reduceIte, hstays] at hlines ⊢
  split at hlines
  · exact absurd (lines_between _ _) hlines
  · rfl

/-- **An empty line is found by a walk backwards, or by a paragraph walk that leads from it to the
next line.** -/
theorem span_emptyLine (hw : w.isLinewise = false) (ha : w.take? d s key p = some a)
    (hlines : (w.span d u p a).lines ≠ none) (hempty : (w.span d u p a).isEmpty = true) :
    ∃ i, w.span d u p a = .emptyLine i ∧ d.lineLen i = 0 ∧
      (w = paragraphForward ∧ d.clamp p = ⟨i, 0⟩ ∧ a.target = ⟨i + 1, 0⟩ ∨
        w = paragraphBackward ∨ ∃ kind, w = wordBackward kind) := by
  have ho := d.inBounds_clamp p
  have hin := inBounds_of_take? hw ha
  have hcross (hspan : w.span d u p a = d.walkedSpan u (d.clamp p) a) :
      a.inclusive = false ∧ ∃ i, w.span d u p a = .emptyLine i ∧ d.lineLen i = 0 ∧
        (d.clamp p = ⟨i, 0⟩ ∧ a.target = ⟨i + 1, 0⟩ ∨
          d.clamp p = ⟨i + 1, 0⟩ ∧ a.target = ⟨i, 0⟩) := by
    rw [hspan] at hlines hempty ⊢
    have h := walkedSpan_emptyLine ho hlines hempty
    rwa [d.clamp_of_inBounds hin] at h
  cases hchanges : w.changesLine with
  | false =>
    -- Such a walk does not reach another line.
    obtain ⟨hinclusive, i, -, -, hends⟩ := hcross (span_eq_walkedSpan hw hchanges)
    have hline := line_of_take? hw hchanges ha hinclusive
    rcases hends with ⟨hp, htarget⟩ | ⟨hp, htarget⟩
    · rw [hp, htarget] at hline
      exact absurd hline (Nat.succ_ne_self i)
    · rw [hp, htarget] at hline
      exact absurd hline.symm (Nat.succ_ne_self i)
  | true =>
    cases w with
    | paragraphForward =>
      obtain ⟨-, i, hspan, hlen, hends⟩ := hcross rfl
      refine ⟨i, hspan, hlen, .inl ⟨rfl, ?_⟩⟩
      rcases hends with hends | ⟨hp, htarget⟩
      · exact hends
      · cases ha
        have hline := line_le_paragraphForward (d := d) p
        dsimp only at htarget
        rw [hp, htarget] at hline
        exact absurd hline (Nat.not_succ_le_self i)
    | paragraphBackward =>
      obtain ⟨-, i, hspan, hlen, -⟩ := hcross rfl
      exact ⟨i, hspan, hlen, .inr (.inl rfl)⟩
    | wordBackward kind =>
      obtain ⟨-, i, hspan, hlen, -⟩ := hcross rfl
      exact ⟨i, hspan, hlen, .inr (.inr ⟨kind, rfl⟩)⟩
    | wordForward kind =>
      cases ha
      have hline := line_le_wordForward (d := d) kind p
      obtain ⟨hstays, hspan⟩ := span_wordForward_of_lines hlines
      obtain ⟨-, i, -, -, hends⟩ := hcross hspan
      dsimp only at hstays hends
      rcases hends with ⟨hp, htarget⟩ | ⟨hp, htarget⟩
      · rw [hp, htarget] at hstays
        exact absurd (Nat.lt_succ_self i) hstays
      · rw [hp, htarget] at hline
        exact absurd hline (Nat.not_succ_le_self i)
    | _ => cases hchanges

/-- **A walk of characters finds both an empty line and no characters at one place** only at the
start of the document. -/
theorem atOrigin_of_span (hw : w.isLinewise = false) (ha : w.take? d s key p = some a)
    (ha' : w.take? d s key p' = some a') (hempty : (w.span d u p a).isEmpty = true)
    (hnone : (w.span d u p a).lines = none) (hlines : (w.span d u p' a').lines ≠ none)
    (htied : (w.span d u p a).Tied (w.span d u p' a')) :
    (w.span d u p a).atOrigin = true := by
  have hempty' : (w.span d u p' a').isEmpty = true := Range.isEmpty_congr htied ▸ hempty
  obtain ⟨i, hline, hlen, hwalk⟩ := span_emptyLine hw ha' hlines hempty'
  have hstart : (w.span d u p a).start = ⟨i, 0⟩ := by rw [htied.1, hline]; rfl
  have hin := inBounds_of_take? hw ha
  have hstays (hinclusive : a.inclusive = false)
      (hspan : w.span d u p a = d.walkedSpan u (d.clamp p) a) :
      d.clamp p = ⟨i, 0⟩ ∧ a.target = ⟨i, 0⟩ := by
    rw [hspan] at hnone hempty hstart
    have h := eq_of_walkedSpan_isEmpty hinclusive hnone hempty hstart
    rwa [d.clamp_of_inBounds hin] at h
  -- A walk backwards that stays where it is begins in the first line.
  suffices hfirst : i = 0 by
    subst hfirst
    have hsame := Range.isEmpty_iff.1 hempty
    exact Range.atOrigin_iff.2 ⟨hstart, hsame.symm.trans hstart⟩
  rcases hwalk with ⟨rfl, hp', htarget'⟩ | rfl | ⟨kind, rfl⟩
  · -- From one place the walk leads to one place.
    cases ha
    cases ha'
    obtain ⟨hp, htarget⟩ := hstays rfl rfl
    have hsame : d.paragraphForward p = d.paragraphForward p' := by
      simp only [Document.paragraphForward, hp, hp']
    dsimp only at htarget htarget'
    rw [htarget, htarget'] at hsame
    cases hsame
  · cases ha
    obtain ⟨hp, htarget⟩ := hstays rfl rfl
    by_contra hpos
    have hlt := paragraphBackward_line_lt (d := d) (p := p) (by rw [hp]; exact hlen)
      (by rw [hp]; exact Nat.pos_of_ne_zero hpos)
    dsimp only at htarget
    rw [hp, htarget] at hlt
    exact Nat.lt_irrefl i hlt
  · cases ha
    obtain ⟨hp, htarget⟩ := hstays rfl rfl
    by_contra hpos
    have hlt := wordBackward_line_lt (d := d) (p := p) kind (by rw [hp])
      (by rw [hp]; exact Nat.pos_of_ne_zero hpos)
    dsimp only at htarget
    rw [hp, htarget] at hlt
    exact Nat.lt_irrefl i hlt

end Walk

/-! ### Text objects -/

/-- A text object finds both an empty line and no characters at one place only at the start of the
document. -/
theorem TextObject.atOrigin_of_compute {o : TextObject} {keys rest rest' : List Key}
    {res res' : ObjectRange} (h : o.compute d u p keys = .some res rest)
    (h' : o.compute d u p' keys = .some res' rest') (htied : res.range.Tied res'.range)
    (hempty : res.range.isEmpty = true) (hnone : res.range.lines = none)
    (hlines : res'.range.lines ≠ none) : res.range.atOrigin = true := by
  cases o with
  | structural name pattern kind around =>
    simp only [compute] at h h'
    obtain ⟨key, h, h'⟩ := Found.exists_of_ofMatch h h'
    obtain ⟨r, hr, rfl⟩ := Option.map_eq_some_iff.1 h
    obtain ⟨r', hr', rfl⟩ := Option.map_eq_some_iff.1 h'
    by_cases hk : kind = .paragraph
    · subst hk
      cases hr
      cases hnone
    · exact absurd (Structure.isPiece_span hk hr').lines hlines
  | walked m =>
    simp only [compute] at h h'
    obtain ⟨key, h, h'⟩ := Found.exists_of_ofMatch h h'
    obtain ⟨a, ha, rfl⟩ := Option.map_eq_some_iff.1 h
    obtain ⟨a', ha', rfl⟩ := Option.map_eq_some_iff.1 h'
    cases hw : m.walk.isLinewise with
    | true =>
      simp only [Walk.span, hw, ↓reduceIte] at hnone
      cases hnone
    | false => exact Walk.atOrigin_of_span hw ha ha' hempty hnone hlines htied
  | line pattern withBreak =>
    simp only [compute] at h
    obtain ⟨key, h⟩ := Found.ofMatch_eq_some h
    cases h
    cases hnone

/-- **The ranges of an operator are orderly.** -/
theorem OperatorKind.orderly_of_targetsOf {sels : List Selection} {keys : List Key}
    {o : TextObject} {found : List (Selection × Option ObjectRange)}
    (h : targetsOf d u sels keys o = some found) :
    d.Orderly (o.takesBreak u) (rangesOf found) where
  toRegular := regular_of_targetsOf h
  origin := by
    intro r hr q hq htied hempty hnone hlines
    obtain ⟨p, res, rest, hc, rfl⟩ := exists_compute_of_targetsOf h hr
    obtain ⟨p', res', rest', hc', rfl⟩ := exists_compute_of_targetsOf h hq
    exact TextObject.atOrigin_of_compute hc hc' htied hempty hnone hlines

end ModalEdit
