import ModalEdit.Proofs.Command.Batch
import ModalEdit.Proofs.Operator.Clash
import ModalEdit.Proofs.Step

/-!
# Removing merged ranges

In a text whose only breaks are line feeds the merged ranges of an operator are sorted by offsets
and cover the ranges that were merged (`Document.Regular.sorted`, `Document.Regular.covers`). They
do not overlap, their batch of deletions is accepted and the operator succeeds, each of them if and
only if there is no clash (`Document.Regular.apart_iff`, `Document.Regular.accepts_iff`,
`Document.Regular.ends_apply`).
-/

namespace ModalEdit

variable {d : Document} {withBreak : Bool} {rs : List Range}

namespace Document.Regular

theorem fits_mergeRanges (hrs : d.Regular withBreak rs) : ∀ q ∈ d.mergeRanges rs, d.Fits q :=
  Document.fits_mergeRanges fun r hr => (hrs.span r hr).fits

/-- **Merged ranges are sorted.** -/
theorem sorted (hrs : d.Regular withBreak rs) :
    (d.mergeRanges rs).Pairwise fun q q' => d.offsetOf q.start ≤ d.offsetOf q'.start :=
  (pairwise_mergeRanges hrs).imp_of_mem fun hq hq' h =>
    offsetOf_mono (hrs.fits_mergeRanges _ hq).start (hrs.fits_mergeRanges _ hq').start h.1

/-- **Merged ranges cover the ranges that were merged.** -/
theorem covers (hrs : d.Regular withBreak rs) {r : Range} (hr : r ∈ rs) :
    ∃ q ∈ d.mergeRanges rs, d.offsetOf q.start ≤ d.offsetOf r.start ∧
      d.offsetOf r.stop ≤ d.offsetOf q.stop := by
  obtain ⟨g, hg, hhead, hcovers⟩ := exists_group_of_mem hrs hr
  have hgathers := gathers_of_mem_groups hrs g hg
  have hfits := (hrs.span r hr).fits
  refine ⟨g.range, map_range_groups (d := d) rs ▸ List.mem_map_of_mem hg, ?_, ?_⟩
  · exact offsetOf_mono hgathers.fits.start hfits.start
      (Position.le_trans hgathers.start_le_head hhead)
  · exact offsetOf_mono hfits.stop hgathers.fits.stop hcovers.stop

/-- Without a clash the merged ranges do not overlap. -/
theorem apart (hrs : d.Regular withBreak rs) (h : ∀ c, ¬ d.Clash rs c) :
    (d.mergeRanges rs).Pairwise fun q q' => d.offsetOf q.stop ≤ d.offsetOf q'.start :=
  (pairwise_mergeRanges hrs).imp_of_mem fun hq hq' hpair =>
    offsetOf_mono (hrs.fits_mergeRanges _ hq).stop (hrs.fits_mergeRanges _ hq').start
      (hpair.2.resolve_right fun ⟨c, hc⟩ => h c hc)

/-- With a clash two merged ranges that hold something overlap. -/
theorem not_apart (hd : d.LineFeedsOnly) (hrs : d.Regular withBreak rs) {c : Nat}
    (h : d.Clash rs c) {qs : List Range} (hqs : ∀ q ∈ d.mergeRanges rs, q.start < q.stop → q ∈ qs) :
    ¬ qs.Pairwise fun q q' => d.offsetOf q.stop ≤ d.offsetOf q'.start := by
  obtain ⟨q, hq, q', hq', hne, hlt, hlt'⟩ := h.exists_overlap hrs
  have hfits := hrs.fits_mergeRanges q hq
  have hfits' := hrs.fits_mergeRanges q' hq'
  have ho := hd.offsetOf_lt hfits.start hfits.stop hne
  have hover := hd.offsetOf_lt hfits'.start hfits.stop hlt
  have hover' := hd.offsetOf_lt hfits.stop hfits'.stop hlt'
  have hmem := hqs q hq hne
  have hmem' := hqs q' hq' (Position.lt_of_lt_of_le hlt (Position.le_of_lt hlt'))
  intro hpairwise
  have hne' : q ≠ q' := by
    rintro rfl
    exact Position.lt_irrefl _ hlt'
  have := rel_or_rel_of_mem hpairwise hmem hmem' hne'
  omega

/-- **Merged ranges do not overlap if and only if there is no clash.** -/
theorem apart_iff (hd : d.LineFeedsOnly) (hrs : d.Regular withBreak rs) :
    ((d.mergeRanges rs).Pairwise fun q q' => d.offsetOf q.stop ≤ d.offsetOf q'.start) ↔
      ∀ c, ¬ d.Clash rs c :=
  ⟨fun h _ hc => hrs.not_apart hd hc (fun _ hq _ => hq) h, hrs.apart⟩

open OperatorKind

theorem fits_deletions (hrs : d.Regular withBreak rs) :
    ∀ e ∈ deletions (d.mergeRanges rs), d.Fits e.range := by
  intro e he
  obtain ⟨q, hq, rfl⟩ := List.mem_map.1 he
  exact hrs.fits_mergeRanges q (List.mem_filter.1 hq).1

/-- **The deletions are accepted if and only if there is no clash.** -/
theorem accepts_iff (hd : d.LineFeedsOnly) (hrs : d.Regular withBreak rs) :
    (∃ plan, d.plan (deletions (d.mergeRanges rs)) = .ok plan) ↔ ∀ c, ¬ d.Clash rs c := by
  rw [exists_plan_iff_of_sorted hrs.fits_deletions, deletions, List.pairwise_map]
  · refine ⟨fun h _ hc => hrs.not_apart hd hc (fun q hq hlt => ?_) h, fun h => ?_⟩
    · refine List.mem_filter.2 ⟨hq, ?_⟩
      simp only [Range.isEmpty, Bool.not_eq_eq_eq_not, Bool.not_true, beq_eq_false_iff_ne]
      exact fun heq => Position.lt_irrefl _ (heq ▸ hlt)
    · exact (hrs.apart h).filter _
  · rw [deletions, List.pairwise_map]
    exact hrs.sorted.filter _

theorem exists_clash_of_plan (hd : d.LineFeedsOnly) (hrs : d.Regular withBreak rs) {c : EditError}
    (h : d.plan (deletions (d.mergeRanges rs)) = .error c) : ∃ c, d.Clash rs c := by
  refine Classical.not_forall_not.1 fun hno => ?_
  obtain ⟨plan, hok⟩ := (hrs.accepts_iff hd).2 hno
  rw [h] at hok
  cases hok

/-- **The operator removes the ranges if and only if there is no clash**, and else it fails because
edits overlap and changes nothing. -/
theorem ends_apply (hd : d.LineFeedsOnly) (hrs : d.Regular withBreak rs) {kind : OperatorKind}
    (hkind : kind ≠ .yank) (pl : Placement) {targets : List Target}
    (htargets : targets.filterMap (·.2) = rs) (ofSelection : Bool) {s : State}
    (hdoc : s.editor.document = some d) (hreadonly : s.editor.readonly = false) :
    (kind.apply pl d targets ofSelection).Ends s (fun _ _ => ∀ c, ¬ d.Clash rs c)
      fun e s' => s' = s ∧ (∃ o, e = .edit (.overlap o)) ∧ ∃ c, d.Clash rs c := by
  simp only [OperatorKind.apply, htargets, hkind, ↓reduceIte, Step.ends_bind, Step.ends_modify]
  refine Step.ends_commit hdoc (fun after plan hedit => ?_) fun e he => ?_
  · exact (hrs.accepts_iff hd).1 ⟨plan, (edit_eq_ok_iff.1 hedit).1⟩
  · obtain ⟨c, hc, rfl⟩ := he.resolve_right (by simp [hreadonly])
    have hplan := edit_eq_error_iff.1 hc
    obtain ⟨o, rfl⟩ := exists_overlap_of_plan (fun e he =>
      ⟨(hrs.fits_deletions e he).start, (hrs.fits_deletions e he).stop⟩) hplan
    exact ⟨rfl, ⟨o, rfl⟩, hrs.exists_clash_of_plan hd hplan⟩

end Document.Regular

end ModalEdit
