import ModalEdit.Proofs.Session.Invariant
import ModalEdit.Proofs.Span.Bounds

/-!
# The batches that commands make

Every batch has at most one edit per selection, and in a sound state the range of every edit fits
the document.
-/

namespace ModalEdit

variable {d : Document}

theorem Document.fits_emptyAt {p : Position} (h : d.InBounds p) : d.Fits (.emptyAt p) :=
  ⟨h, h, Position.le_refl p⟩

/-! ### Opening, replacing and joining -/

theorem fits_openLineEdit {below : Bool} {i : Nat} (h : i < d.lineCount) :
    d.Fits (openLineEdit d below i).range := by
  unfold openLineEdit
  split
  · exact Document.fits_emptyAt (Document.inBounds_lineEnd h)
  · exact Document.fits_emptyAt (Document.inBounds_lineStart h)

theorem joinSkip_le (current next : Text) (comment : Option Text) :
    joinSkip current next comment ≤ next.length := by
  have hindent := (List.takeWhile_sublist (l := next) isBlank).length_le
  simp only [joinSkip]
  split
  · exact hindent
  · rename_i token
    split
    · exact hindent
    · rename_i h
      simp only [not_or, Decidable.not_not] at h
      have htoken := (List.isPrefixOf_iff_prefix.1 h.2.2).length_le
      have hrest := (List.takeWhile_sublist isBlank
        (l := (next.drop (next.takeWhile isBlank).length).drop token.length)).length_le
      simp only [List.length_drop] at htoken hrest
      omega

theorem fits_joinEdit {comment : Option Text} {i : Nat} (h : i < d.lastLine) :
    d.Fits (joinEdit d comment i).range :=
  Document.fits_between (Document.inBounds_lineEnd (Document.lt_lineCount (Nat.le_of_lt h)))
    ⟨Document.lt_lineCount h, joinSkip_le _ _ _⟩

namespace State

variable {s : State}

theorem fits_openLineEdits {below : Bool} {e : Edit} (h : e ∈ s.openLineEdits d below) :
    d.Fits e.range := by
  obtain ⟨i, hi, rfl⟩ := List.mem_map.1 h
  exact fits_openLineEdit (lt_of_mem_cursorLines hi)

theorem length_openLineEdits_le (below : Bool) :
    (s.openLineEdits d below).length ≤ s.selections.length := by
  rw [openLineEdits, List.length_map]
  exact length_cursorLines_le

theorem fits_replaceCharEdits {text : Text} {e : Edit} (h : e ∈ s.replaceCharEdits d text) :
    d.Fits e.range := by
  obtain ⟨p, hp, rfl⟩ := List.mem_map.1 h
  obtain ⟨hp, hcol⟩ := List.mem_filter.1 hp
  have hin := inBounds_of_mem_cursorsIn hp
  have hcol : p.col < d.lineLen p.line := by simpa using hcol
  exact Document.fits_between hin ⟨hin.1, hcol⟩

theorem length_replaceCharEdits_le (text : Text) :
    (s.replaceCharEdits d text).length ≤ s.selections.length := by
  rw [replaceCharEdits, List.length_map]
  exact Nat.le_trans (List.length_filter_le _ _) length_cursorsIn_le

theorem fits_joinLinesEdits {settings : Settings} {e : Edit}
    (h : e ∈ s.joinLinesEdits settings d) : d.Fits e.range := by
  obtain ⟨i, hi, rfl⟩ := List.mem_map.1 h
  exact fits_joinEdit (by simpa using (List.mem_filter.1 hi).2)

theorem length_joinLinesEdits_le (settings : Settings) :
    (s.joinLinesEdits settings d).length ≤ s.selections.length := by
  rw [joinLinesEdits, List.length_map]
  exact Nat.le_trans (List.length_filter_le _ _) length_cursorLines_le

end State

/-! ### Pasting -/

theorem exists_mem_of_mem_zipWith {α β γ : Type} {f : α → β → γ} {as : List α} {bs : List β}
    {c : γ} (h : c ∈ List.zipWith f as bs) : ∃ a ∈ as, ∃ b ∈ bs, c = f a b := by
  rw [← List.map_uncurry_zip_eq_zipWith] at h
  obtain ⟨⟨a, b⟩, hab, rfl⟩ := List.mem_map.1 h
  exact ⟨a, (List.of_mem_zip hab).1, b, (List.of_mem_zip hab).2, rfl⟩

theorem fits_pasteEdit {after : Bool} {sel : Selection} {e : RegisterEntry} :
    d.Fits (pasteEdit d after sel e).range := by
  have h := d.inBounds_clamp sel.active
  simp only [pasteEdit]
  split
  · exact Document.fits_emptyAt (Document.inBounds_lineEnd h.1)
  · exact Document.fits_emptyAt (Document.inBounds_lineStart h.1)
  · exact Document.fits_emptyAt ⟨h.1, Nat.min_le_right _ _⟩
  · exact Document.fits_emptyAt h

theorem length_byPosition_le (sels : List Selection) (entries : List RegisterEntry) :
    (byPosition sels entries).length ≤ sels.length := by
  have := List.length_filterMap_le (fun i => List.lookup i
    (((sels.zipIdx.mergeSort fun a b => decide (a.1.start ≤ b.1.start)).map (·.2)).zip entries))
    (List.range sels.length)
  rwa [List.length_range] at this

theorem Document.Holds.fits_range {sel : Selection} (h : d.Holds sel) : d.Fits sel.range :=
  fits_between h.1 h.2

namespace State

variable {s : State}

theorem length_pasteEntries_le : s.pasteEntries.length ≤ s.selections.length :=
  length_byPosition_le _ _

theorem fits_pasteEdits {after : Bool} {e : Edit} (h : e ∈ s.pasteEdits d after) :
    d.Fits e.range := by
  obtain ⟨sel, -, entry, -, rfl⟩ := exists_mem_of_mem_zipWith h
  exact fits_pasteEdit

theorem length_pasteEdits (after : Bool) :
    (s.pasteEdits d after).length = s.pasteEntries.length := by
  rw [pasteEdits, List.length_zipWith]
  exact Nat.min_eq_right length_pasteEntries_le

theorem fits_selectedRange {withBreak : Bool} {sel : Selection} (h : d.Holds sel) :
    d.Fits (s.selectedRange d withBreak sel) := by
  unfold selectedRange
  split
  · exact Document.fits_linesSpan _ _ _
  · exact h.fits_range

theorem fits_pasteOverEdits (hsels : ∀ sel ∈ s.selections, d.Holds sel) {e : Edit}
    (h : e ∈ s.pasteOverEdits d) : d.Fits e.range := by
  obtain ⟨r, hr, entry, -, rfl⟩ := exists_mem_of_mem_zipWith h
  obtain ⟨sel, hsel, rfl⟩ := List.mem_map.1 hr
  exact fits_selectedRange (hsels sel hsel)

theorem length_pasteOverEdits : (s.pasteOverEdits d).length = s.pasteEntries.length := by
  rw [pasteOverEdits, List.length_zipWith, List.length_map]
  exact Nat.min_eq_right length_pasteEntries_le

end State

/-! ### Commands -/

/-- The batch that a command makes; `key` is the key captured. -/
def Command.edits (c : Command) (settings : Settings) (d : Document) (key : Option Key)
    (s : State) : List Edit :=
  match c with
  | openLine below => s.openLineEdits d below
  | replaceChar => ((Key.replacement? key).map (s.replaceCharEdits d)).getD []
  | joinLines => s.joinLinesEdits settings d
  | paste after => s.syncRegisters.pasteEdits d after
  | pasteOver _ => s.syncRegisters.pasteOverEdits d
  | escape | insert _ | toggleVisual | toggleVisualLine | swapEnds => []

/-! ### Typing -/

theorem Typed.fits_of_edit? {t : Typed} {sel : Selection} {e : Edit} (hsel : d.Holds sel)
    (h : t.edit? d sel = some e) : d.Fits e.range := by
  have hclamp := d.inBounds_clamp sel.active
  cases t with
  | text t =>
    cases h
    exact hsel.fits_range
  | deleteBefore =>
    simp only [edit?] at h
    split at h
    · cases h
      exact hsel.fits_range
    · split at h <;> cases h
      exact Document.fits_between (Document.inBounds_stepBack hclamp) hclamp
  | deleteAfter =>
    simp only [edit?] at h
    split at h
    · cases h
      exact hsel.fits_range
    · split at h <;> cases h
      exact Document.fits_between hclamp (Document.inBounds_stepForward hclamp)

theorem eraseReps_loop_spec {α : Type} [BEq α] (a : α) (l acc : List α) :
    ∃ k, List.eraseRepsBy.loop (· == ·) a l acc = acc.reverse ++ a :: k ∧ k.Sublist l := by
  induction l generalizing a acc with
  | nil => exact ⟨[], by simp [List.eraseRepsBy.loop], List.Sublist.slnil⟩
  | cons b l ih =>
    unfold List.eraseRepsBy.loop
    split
    · obtain ⟨k, hk, hsub⟩ := ih a acc
      exact ⟨k, hk, hsub.cons b⟩
    · obtain ⟨k, hk, hsub⟩ := ih b (a :: acc)
      exact ⟨b :: k, by simp [hk], hsub.cons_cons b⟩

theorem eraseReps_sublist {α : Type} [BEq α] (l : List α) : l.eraseReps.Sublist l := by
  cases l with
  | nil => exact List.Sublist.slnil
  | cons a l =>
    obtain ⟨k, hk, hsub⟩ := eraseReps_loop_spec a l []
    rw [List.eraseReps, List.eraseRepsBy, hk]
    exact hsub.cons_cons a

theorem eraseReps_ne_nil {α : Type} [BEq α] {l : List α} (h : l ≠ []) : l.eraseReps ≠ [] := by
  obtain ⟨a, l, rfl⟩ := List.exists_cons_of_ne_nil h
  obtain ⟨k, hk, -⟩ := eraseReps_loop_spec a l []
  rw [List.eraseReps, List.eraseRepsBy, hk]
  exact List.cons_ne_nil _ _

namespace State

variable {s : State}

/-- The batch of a typed key. -/
def typeEdits (s : State) (d : Document) (t : Typed) : List Edit := (s.typings d t).filterMap (·.2)

theorem fits_typeEdits (hsels : ∀ sel ∈ s.selections, d.Holds sel) {t : Typed} {e : Edit}
    (h : e ∈ s.typeEdits d t) : d.Fits e.range := by
  obtain ⟨_, hmem, he⟩ := List.mem_filterMap.1 h
  obtain ⟨sel, hsel, rfl⟩ := List.mem_map.1 hmem
  exact Typed.fits_of_edit? (hsels sel ((eraseReps_sublist _).subset hsel)) he

theorem length_typings_le (t : Typed) : (s.typings d t).length ≤ s.selections.length := by
  rw [typings, List.length_map]
  exact (eraseReps_sublist _).length_le

theorem length_typeEdits_le (t : Typed) : (s.typeEdits d t).length ≤ s.selections.length :=
  Nat.le_trans (List.length_filterMap_le _ _) (length_typings_le t)

end State

/-! ### Removing -/

theorem Range.fits_union {r q : Range} (hr : d.Fits r) (hq : d.Fits q) :
    d.Fits (r.union d q) := by
  unfold Range.union
  split
  · exact Document.fits_linesSpan _ _ _
  · exact Document.fits_between hr.start (Document.inBounds_max hr.stop hq.stop)

theorem Range.fits_mergeFrom {last : Range} {rs : List Range} (hlast : d.Fits last)
    (hrs : ∀ r ∈ rs, d.Fits r) : ∀ r ∈ last.mergeFrom d rs, d.Fits r := by
  fun_induction Range.mergeFrom d last rs with
  | case1 last => simpa using hlast
  | case2 last r rs _ ih =>
    obtain ⟨hr, hrs⟩ := List.forall_mem_cons.1 hrs
    exact ih (Range.fits_union hlast hr) hrs
  | case3 last r rs _ ih =>
    obtain ⟨hr, hrs⟩ := List.forall_mem_cons.1 hrs
    exact List.forall_mem_cons.2 ⟨hlast, ih hr hrs⟩

theorem Range.length_mergeFrom_le (last : Range) (rs : List Range) :
    (last.mergeFrom d rs).length ≤ rs.length + 1 := by
  fun_induction Range.mergeFrom d last rs with
  | case1 last => simp
  | case2 last r rs _ ih => simp only [List.length_cons]; omega
  | case3 last r rs _ ih => simp only [List.length_cons]; omega

theorem Document.fits_mergeRanges {rs : List Range} (h : ∀ r ∈ rs, d.Fits r) :
    ∀ r ∈ d.mergeRanges rs, d.Fits r := by
  have hsorted : ∀ r ∈ rs.mergeSort Range.precedes, d.Fits r := fun r hr =>
    h r (List.mem_mergeSort.1 hr)
  unfold mergeRanges
  split
  · simp
  · rename_i r rs' hs
    rw [hs] at hsorted
    obtain ⟨hr, hrs⟩ := List.forall_mem_cons.1 hsorted
    exact Range.fits_mergeFrom hr hrs

theorem Document.length_mergeRanges_le (rs : List Range) :
    (d.mergeRanges rs).length ≤ rs.length := by
  have hlen : (rs.mergeSort Range.precedes).length = rs.length := List.length_mergeSort rs
  unfold mergeRanges
  split
  · exact Nat.zero_le _
  · rename_i r rs' hs
    rw [hs] at hlen
    exact hlen ▸ Range.length_mergeFrom_le r rs'

namespace OperatorKind

/-- The batch of an operator on ranges. -/
def edits (kind : OperatorKind) (d : Document) (rs : List Range) : List Edit :=
  if kind = .yank then [] else deletions (d.mergeRanges rs)

theorem fits_edits {kind : OperatorKind} {rs : List Range} (hrs : ∀ r ∈ rs, d.Fits r) {e : Edit}
    (h : e ∈ kind.edits d rs) : d.Fits e.range := by
  unfold edits at h
  split at h
  · simp at h
  · obtain ⟨r, hr, rfl⟩ := List.mem_map.1 h
    exact Document.fits_mergeRanges hrs r (List.mem_filter.1 hr).1

theorem length_edits_le (kind : OperatorKind) (rs : List Range) :
    (kind.edits d rs).length ≤ rs.length := by
  unfold edits
  split
  · exact Nat.zero_le _
  · rw [deletions, List.length_map]
    exact Nat.le_trans (List.length_filter_le _ _) (Document.length_mergeRanges_le rs)

end OperatorKind

end ModalEdit
