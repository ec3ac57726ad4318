import ModalEdit.Proofs.Operator.Merge

/-!
# The ranges of an operator

The ranges that a text object finds fit the document (`OperatorKind.fits_of_targetsOf`), and they
are regular (`OperatorKind.regular_of_targetsOf`): an object that can find whole lines up to the
last one finds nothing but whole lines.
-/

namespace ModalEdit

variable {d : Document}

/-- The ranges among what a text object has found. -/
def OperatorKind.rangesOf (found : List (Selection × Option ObjectRange)) : List Range :=
  found.filterMap fun t => t.2.map (·.range)

/-- They are the ranges of the targets of the operator. -/
theorem OperatorKind.filterMap_targets (found : List (Selection × Option ObjectRange)) :
    (found.map fun t => (t.1, t.2.map (·.range))).filterMap (·.2) = rangesOf found := by
  rw [List.filterMap_map]
  rfl

/-- What has been found at a selection is the result of the object there. -/
theorem OperatorKind.exists_compute_of_targetsOf {u : Purpose} {sels : List Selection}
    {keys : List Key} {o : TextObject} {found : List (Selection × Option ObjectRange)}
    (h : targetsOf d u sels keys o = some found) {r : Range}
    (hr : r ∈ rangesOf found) :
    ∃ p res rest, o.compute d u p keys = .some res rest ∧ r = res.range := by
  simp only [targetsOf] at h
  split at h <;> cases h
  obtain ⟨t, ht, hr⟩ := List.mem_filterMap.1 hr
  obtain ⟨sel, -, rfl⟩ := List.mem_map.1 ht
  obtain ⟨res, hres, rfl⟩ := Option.map_eq_some_iff.1 hr
  obtain ⟨rest, hc⟩ := Found.exists_of_result? hres
  exact ⟨_, _, rest, hc, rfl⟩

theorem OperatorKind.fits_of_targetsOf {u : Purpose} {sels : List Selection} {keys : List Key}
    {o : TextObject} {found : List (Selection × Option ObjectRange)}
    (h : targetsOf d u sels keys o = some found) :
    found.length = sels.length ∧
      ∀ r ∈ rangesOf found, d.IsSpan (o.takesBreak u) r := by
  refine ⟨?_, fun r hr => ?_⟩
  · simp only [targetsOf] at h
    split at h <;> cases h
    exact List.length_map _
  · obtain ⟨p, res, rest, hc, rfl⟩ := exists_compute_of_targetsOf h hr
    exact TextObject.isSpan_of_compute hc

/-- A walk of characters that stands for lines leaves out the last line. -/
theorem Document.last_lt_of_walkedSpan {u : Purpose} {origin : Position} (ho : d.InBounds origin)
    {a : Arrival} {l : LineSpan} (h : (d.walkedSpan u origin a).lines = some l) :
    l.last < d.lastLine := by
  have hr := isPiece_between ho (d.inBounds_clamp a.target)
  simp only [walkedSpan] at h
  generalize Range.between origin (d.clamp a.target) = r at h hr
  have hline := hr.stop.line_le
  split at h
  · simp [hr.lines] at h
  · split at h
    · rename_i hcross
      split at h
      · rw [lines_linesSpan] at h
        cases h
        dsimp only
        omega
      · simp [hr.lines] at h
    · simp [hr.lines] at h

theorem Walk.last_lt_of_span {w : Walk} (hw : w.isLinewise = false) {u : Purpose} {p : Position}
    {a : Arrival} {l : LineSpan} (h : (w.span d u p a).lines = some l) : l.last < d.lastLine := by
  have ho := d.inBounds_clamp p
  simp only [span, hw, Bool.false_eq_true, ↓reduceIte] at h
  split at h
  · split at h
    · simp [Document.lines_between] at h
    · split at h
      · simp [Document.lines_between] at h
      · exact Document.last_lt_of_walkedSpan ho h
  · exact Document.last_lt_of_walkedSpan ho h

/-- **The ranges of a text object do not mix** whole lines up to the last one with pieces of
characters. -/
theorem TextObject.unmixed (o : TextObject) (d : Document) (u : Purpose) :
    (∀ p keys res rest, o.compute d u p keys = .some res rest → res.range.lines ≠ none) ∨
      ∀ p keys res rest, o.compute d u p keys = .some res rest →
        ∀ l, res.range.lines = some l → l.last < d.lastLine := by
  cases o with
  | structural name pattern kind around =>
    by_cases hk : kind = .paragraph
    · refine .inl fun p keys res rest h => ?_
      simp only [compute] at h
      obtain ⟨key, h⟩ := Found.ofMatch_eq_some h
      obtain ⟨r, hr, rfl⟩ := Option.map_eq_some_iff.1 h
      subst hk
      cases hr
      exact Option.some_ne_none _
    · refine .inr fun p keys res rest h l hl => ?_
      simp only [compute] at h
      obtain ⟨key, h⟩ := Found.ofMatch_eq_some h
      obtain ⟨r, hr, rfl⟩ := Option.map_eq_some_iff.1 h
      rw [(Structure.isPiece_span hk hr).lines] at hl
      cases hl
  | walked m =>
    cases hw : m.walk.isLinewise with
    | true =>
      refine .inl fun p keys res rest h => ?_
      simp only [compute] at h
      obtain ⟨key, h⟩ := Found.ofMatch_eq_some h
      obtain ⟨a, -, rfl⟩ := Option.map_eq_some_iff.1 h
      simp only [Walk.span, hw, ↓reduceIte]
      exact Option.some_ne_none _
    | false =>
      refine .inr fun p keys res rest h l hl => ?_
      simp only [compute] at h
      obtain ⟨key, h⟩ := Found.ofMatch_eq_some h
      obtain ⟨a, -, rfl⟩ := Option.map_eq_some_iff.1 h
      exact Walk.last_lt_of_span hw hl
  | line pattern withBreak =>
    refine .inl fun p keys res rest h => ?_
    simp only [compute] at h
    obtain ⟨key, h⟩ := Found.ofMatch_eq_some h
    cases h
    exact Option.some_ne_none _

/-- **The ranges of an operator are regular.** -/
theorem OperatorKind.regular_of_targetsOf {u : Purpose} {sels : List Selection} {keys : List Key}
    {o : TextObject} {found : List (Selection × Option ObjectRange)}
    (h : targetsOf d u sels keys o = some found) :
    d.Regular (o.takesBreak u) (rangesOf found) := by
  refine ⟨(fits_of_targetsOf h).2, fun _ => (o.unmixed d u).imp ?_ ?_⟩
  · intro hall r hr
    obtain ⟨p, res, rest, hc, rfl⟩ := exists_compute_of_targetsOf h hr
    exact hall p keys res rest hc
  · intro hall r hr l hl
    obtain ⟨p, res, rest, hc, rfl⟩ := exists_compute_of_targetsOf h hr
    exact hall p keys res rest hc l hl

end ModalEdit
