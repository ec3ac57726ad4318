import ModalEdit.Proofs.Command.Pairing
import ModalEdit.Proofs.Operator.Pieces
import ModalEdit.Proofs.Session.Invariant

/-!
# Deleting and pasting

Pieces of characters with a gap between any two of them are deleted one by one: none are merged, and
every cursor comes to rest where its piece has been (`Document.Separate.apply_delete`). The
registers hold the pieces in document order, while the cursors keep the order of the selections. A
paste before the cursors gives each cursor its own piece and so restores the text
(`Document.Separate.ends_paste`).
-/

namespace ModalEdit

variable {d : Document} {rs : List Range}

namespace Document

/-- Pieces that hold something, with at least one character between any two of them. -/
structure Separate (d : Document) (rs : List Range) : Prop where
  /-- They are pieces of characters. -/
  piece : ∀ r ∈ rs, d.IsPiece r
  /-- They hold something. -/
  holds : ∀ r ∈ rs, d.slice r ≠ []
  /-- There is a character between any two of them. -/
  gap : rs.Pairwise fun r r' =>
    d.offsetOf r.stop < d.offsetOf r'.start ∨ d.offsetOf r'.stop < d.offsetOf r.start

/-- Ranges in document order. -/
def ordered (rs : List Range) : List Range := rs.mergeSort Range.precedes

theorem ordered_perm (rs : List Range) : (ordered rs).Perm rs := List.mergeSort_perm _ _

theorem mem_ordered {q : Range} : q ∈ ordered rs ↔ q ∈ rs := (ordered_perm rs).mem_iff

/-- The deletions of ranges in document order. -/
def removals (d : Document) (rs : List Range) : List OffsetEdit := d.offsetDeletions (ordered rs)

/-- The document without the ranges. -/
def without (d : Document) (rs : List Range) : Document :=
  ofText (rebuild d.text 0 (d.removals rs))

/-- Where a range has been in the document without the ranges, by offset. -/
def placeOf (d : Document) (rs : List Range) (r : Range) : Nat :=
  Plan.mapOffset ⟨d.removals rs⟩ (d.offsetOf r.start)

/-- Where a range has been in the document without the ranges. -/
def spotOf (d : Document) (rs : List Range) (r : Range) : Position :=
  (d.without rs).positionAt (d.placeOf rs r)

namespace Separate

variable (h : d.Separate rs)
include h

theorem lt {r : Range} (hr : r ∈ rs) : d.offsetOf r.start < d.offsetOf r.stop := by
  have := h.holds r hr
  rw [Ne, slice_eq_nil_iff] at this
  omega

theorem fits_ordered : ∀ q ∈ ordered rs, d.Fits q := fun q hq =>
  (h.piece q (mem_ordered.1 hq)).toFits

/-- In document order every piece ends before the next begins, and not where it begins. -/
theorem pairwise_ordered :
    (ordered rs).Pairwise fun q q' => d.offsetOf q.stop < d.offsetOf q'.start := by
  have hgap := ((ordered_perm rs).pairwise_iff fun h => Or.symm h).2 h.gap
  refine ((pairwise_start_mergeSort rs).and hgap).imp_of_mem fun {q q'} hq hq' hrel => ?_
  have hq := mem_ordered.1 hq
  have hq' := mem_ordered.1 hq'
  have hle := offsetOf_mono (h.piece q hq).start (h.piece q' hq').start hrel.1
  have := h.lt hq'
  omega

theorem mergeFrom_eq {last : Range} {rest : List Range} (hmem : ∀ q ∈ last :: rest, q ∈ rs)
    (hapart : (last :: rest).Pairwise fun q q' => d.offsetOf q.stop < d.offsetOf q'.start) :
    last.mergeFrom d rest = last :: rest := by
  induction rest generalizing last with
  | nil => rfl
  | cons r rest ih =>
    obtain ⟨hlast, hrest⟩ := List.forall_mem_cons.1 hmem
    obtain ⟨hfirst, hapart⟩ := List.pairwise_cons.1 hapart
    have hr := (List.forall_mem_cons.1 hrest).1
    have hgap := hfirst r List.mem_cons_self
    have hno : ¬ (r.start < last.stop ∨ r = last) := by
      rintro (hlt | rfl)
      · have := offsetOf_mono (h.piece r hr).start (h.piece last hlast).stop (Position.le_of_lt hlt)
        omega
      · have := h.lt hr
        omega
    rw [Range.mergeFrom, if_neg hno, ih hrest hapart]

/-- **Separate pieces are not merged.** -/
theorem mergeRanges_eq : d.mergeRanges rs = ordered rs := by
  have hapart := h.pairwise_ordered
  have hmem : ∀ q ∈ ordered rs, q ∈ rs := fun q => mem_ordered.1
  have hsorted : rs.mergeSort Range.precedes = ordered rs := rfl
  rw [mergeRanges, hsorted]
  cases hord : ordered rs with
  | nil => rfl
  | cons r rest =>
    rw [hord] at hapart hmem
    exact h.mergeFrom_eq hmem hapart

theorem pieces_eq : d.pieces rs = ordered rs := by
  rw [pieces, h.mergeRanges_eq, List.filter_eq_self]
  intro q hq
  simpa using h.holds q (mem_ordered.1 hq)

/-- The deletions of separate pieces are those of the pieces in document order, and are accepted. -/
theorem edit_deletions_eq :
    d.edit (OperatorKind.deletions (d.mergeRanges rs)) = .ok (d.without rs, ⟨d.removals rs⟩) := by
  have hdeletions : OperatorKind.deletions (d.mergeRanges rs) = (ordered rs).map Edit.delete := by
    rw [OperatorKind.deletions, h.mergeRanges_eq, List.filter_eq_self.2]
    intro q hq
    have := h.lt (mem_ordered.1 hq)
    simp only [Range.isEmpty, Bool.not_eq_eq_eq_not, Bool.not_true, beq_eq_false_iff_ne]
    intro heq
    rw [heq] at this
    omega
  rw [hdeletions]
  refine (edit_deletions h.fits_ordered ?_).2
  exact h.pairwise_ordered.imp Nat.le_of_lt

/-! ### Where the pieces have been -/

theorem inSequence_removals : InSequence d.size 0 (d.removals rs) :=
  (edit_deletions h.fits_ordered (h.pairwise_ordered.imp Nat.le_of_lt)).1

/-- The place of a piece is the one that the plan gives its deletion. -/
theorem placed_removals :
    Plan.placed 0 0 (d.removals rs) =
      (d.removals rs).map fun e => (e, Plan.mapOffset ⟨d.removals rs⟩ e.start) := by
  have hne : ∀ e ∈ d.removals rs, e.start < e.stop := by
    intro e he
    have hmem := List.mem_map_of_mem (f := fun e => (e.start, e.stop)) he
    rw [removals, map_offsetDeletions] at hmem
    obtain ⟨q, hq, heq⟩ := List.mem_map.1 hmem
    simp only [Prod.mk.injEq] at heq
    exact heq.1 ▸ heq.2 ▸ h.lt (mem_ordered.1 hq)
  exact placed_eq_map h.inSequence_removals hne

/-- **Different pieces have different places**, in document order. -/
theorem pairwise_placeOf :
    (ordered rs).Pairwise fun q q' => d.placeOf rs q < d.placeOf rs q' := by
  have hgap : (d.removals rs).Pairwise fun e f => e.stop < f.start :=
    (pairwise_offsetEdits (fun e f => e.2 < f.1) 0 _).2 (List.pairwise_map.2 h.pairwise_ordered)
  have hplaced := pairwise_placed h.inSequence_removals (Nat.zero_le (0 + 0)) hgap
  rw [h.placed_removals, List.pairwise_map] at hplaced
  have hedits := (pairwise_offsetEdits (fun e f => Plan.mapOffset ⟨d.removals rs⟩ e.1 <
    Plan.mapOffset ⟨d.removals rs⟩ f.1) 0 _).1 hplaced
  rwa [List.pairwise_map] at hedits

/-- To take the deletions back is to put every piece at its place. -/
theorem map_parts_undoing :
    (undoing d.text (Plan.placed 0 0 (d.removals rs))).map OffsetEdit.parts =
      (ordered rs).map fun q => (d.placeOf rs q, d.placeOf rs q, d.slice q) := by
  have hparts := congrArg (List.map fun p => (Plan.mapOffset ⟨d.removals rs⟩ p.1,
    Plan.mapOffset ⟨d.removals rs⟩ p.1, cut d.text p.1 p.2))
    (map_offsetDeletions (d := d) (ordered rs))
  rw [List.map_map, List.map_map] at hparts
  rw [h.placed_removals, undoing, List.map_map, List.map_map]
  refine (List.map_congr_left fun e he => ?_).trans hparts
  simp only [Function.comp_apply, OffsetEdit.parts, text_of_mem_offsetDeletions he,
    List.length_nil, Nat.add_zero]

theorem placeOf_le {r : Range} (hr : r ∈ rs) : d.placeOf rs r ≤ (d.without rs).size := by
  obtain ⟨e, he, hstart⟩ : ∃ e ∈ d.removals rs, e.start = d.offsetOf r.start := by
    have hmem := List.mem_map_of_mem (f := fun q => (d.offsetOf q.start, d.offsetOf q.stop))
      (mem_ordered.2 hr)
    rw [← map_offsetDeletions] at hmem
    obtain ⟨e, he, heq⟩ := List.mem_map.1 hmem
    exact ⟨e, he, (Prod.mk.inj heq).1⟩
  have hplaced : (e, d.placeOf rs r) ∈ Plan.placed 0 0 (d.removals rs) := by
    rw [h.placed_removals, placeOf, ← hstart]
    exact List.mem_map_of_mem he
  obtain ⟨front, back, hparts, hfront⟩ :=
    exists_parts_of_mem_placed [] h.inSequence_removals rfl hplaced
  rw [← hfront, without, size, text_ofText, ← List.nil_append (rebuild _ _ _), hparts]
  simp only [List.length_append]
  omega

theorem offsetOf_spotOf {r : Range} (hr : r ∈ rs) :
    (d.without rs).offsetOf (d.spotOf rs r) = d.placeOf rs r :=
  offsetOf_positionAt (h.placeOf_le hr)

omit h in
theorem inBounds_spotOf (r : Range) : (d.without rs).InBounds (d.spotOf rs r) :=
  inBounds_positionAt _

/-- The cursors that come to rest where the pieces have been come in document order as well. -/
theorem pairwise_spotOf :
    (ordered rs).Pairwise fun q q' => d.spotOf rs q < d.spotOf rs q' := by
  refine h.pairwise_placeOf.imp_of_mem fun {q q'} hq hq' hlt => Position.not_le.1 fun hle => ?_
  have := offsetOf_mono (inBounds_spotOf q') (inBounds_spotOf q) hle
  rw [h.offsetOf_spotOf (mem_ordered.1 hq), h.offsetOf_spotOf (mem_ordered.1 hq')] at this
  omega

theorem nodup_spotOf : (rs.map (d.spotOf rs)).Nodup := by
  have hordered : ((ordered rs).map (d.spotOf rs)).Nodup :=
    List.pairwise_map.2 <| h.pairwise_spotOf.imp fun {q q'} hlt heq => by
      rw [heq] at hlt
      exact Position.lt_irrefl _ hlt
  exact ((ordered_perm rs).map _).nodup_iff.1 hordered

/-- In document order, to insert every piece where it has been is to take the deletions back. -/
theorem map_parts_inOrder :
    ((d.without rs).inOrder (rs.map fun r => Edit.insert (d.spotOf rs r) (d.slice r))).map
        OffsetEdit.parts =
      (undoing d.text (Plan.placed 0 0 (d.removals rs))).map OffsetEdit.parts := by
  rw [h.map_parts_undoing]
  symm
  refine eq_of_perm_of_strict (R := fun a b => a.1 ≤ b.1) ?_ ?_ ?_
  · refine List.pairwise_map.2 (h.pairwise_placeOf.imp fun hlt => ?_)
    dsimp only
    omega
  · exact List.pairwise_map.2 (pairwise_start_inOrder _)
  · have hperm := (d.without rs).perm_parts_inOrder
      (rs.map fun r => Edit.insert (d.spotOf rs r) (d.slice r))
    rw [List.map_map] at hperm
    refine (((ordered_perm rs).map _).trans (List.Perm.of_eq ?_)).trans hperm.symm
    refine List.map_congr_left fun r hr => ?_
    simp only [Function.comp_apply, Edit.insert, Range.emptyAt, h.offsetOf_spotOf hr]

/-- **Putting every piece back at its place restores the text.** -/
theorem edit_puttingBack :
    ∃ plan, (d.without rs).edit (rs.map fun r => Edit.insert (d.spotOf rs r) (d.slice r)) =
      .ok (d, plan) := by
  have hin : ∀ e ∈ rs.map fun r => Edit.insert (d.spotOf rs r) (d.slice r),
      (d.without rs).InBounds e.range.start ∧ e.range.stop = e.range.start :=
    List.forall_mem_map.2 fun r _ => ⟨inBounds_spotOf r, rfl⟩
  have hfits : ∀ e ∈ rs.map fun r => Edit.insert (d.spotOf rs r) (d.slice r),
      (d.without rs).Fits e.range := fun e he =>
    ⟨(hin e he).1, (hin e he).2 ▸ (hin e he).1, (hin e he).2 ▸ Position.le_refl _⟩
  have hedit := edit_eq_ok_iff.2 ⟨plan_of_insertions hin, rfl⟩
  have hback := rebuild_undoing [] h.inSequence_removals (rfl : 0 + 0 = 0 + 0)
  rw [List.nil_append, List.length_nil, List.drop_zero] at hback
  have hrestored := eq_of_text
    ((text_of_edit hfits hedit).trans ((rebuild_congr h.map_parts_inOrder).trans hback))
  rw [hrestored] at hedit
  exact ⟨_, hedit⟩

end Separate

end Document

/-! ### The registers and the clipboard -/

namespace State

variable {s s' : State}

/-- Nobody else has put text on the clipboard. -/
def InSync (s : State) : Prop :=
  ∀ text, s.editor.clipboard = some text → s.session.registers.isForeign text = false

theorem InSync.congr (h : s.InSync) (hclipboard : s'.editor.clipboard = s.editor.clipboard)
    (hregisters : s'.session.registers = s.session.registers) : s'.InSync := by
  intro text htext
  rw [hregisters]
  exact h text (hclipboard ▸ htext)

/-- Then nothing is adopted. -/
theorem InSync.syncRegisters_eq (h : s.InSync) : s.syncRegisters = s := by
  unfold syncRegisters
  split
  · rfl
  · rename_i text htext
    rw [Registers.sync, h text htext]
    rfl

theorem inSync_writeRegisters (s : State) {es : List RegisterEntry} (h : es ≠ []) :
    (s.writeRegisters es).InSync := by
  intro text htext
  unfold writeRegisters at htext ⊢
  rw [if_neg (by simpa using h)] at htext ⊢
  cases hclipboard : s.editor.clipboard with
  | none => simp [hclipboard] at htext
  | some old =>
    simp only [hclipboard, Option.some.injEq] at htext ⊢
    subst htext
    exact Registers.isForeign_noteWritten _ _

end State

/-! ### Deleting and pasting -/

/-- The ranges have been deleted at as many cursors, which have come to rest where they have been,
and the registers hold the ranges in document order. -/
structure Document.Deleted (d : Document) (rs : List Range) (s : State) : Prop where
  /-- The ranges are gone. -/
  document : s.editor.document = some (d.without rs)
  /-- Edits are not refused. -/
  writable : s.editor.readonly = false
  /-- Each cursor is where its range has been. -/
  selections : s.selections = rs.map fun r => .cursor (d.spotOf rs r)
  /-- There is one entry for each range. -/
  entries : s.session.registers.entries =
    (Document.ordered rs).map fun q => .charwise (d.slice q)
  /-- Nobody else has put text on the clipboard. -/
  inSync : s.InSync
  /-- The mode is Normal mode. -/
  mode : s.mode = .normal

theorem Document.Deleted.congr {s s' : State} (h : d.Deleted rs s) (heditor : s'.editor = s.editor)
    (hregisters : s'.session.registers = s.session.registers)
    (hmode : s'.session.mode = s.session.mode) : d.Deleted rs s' where
  document := heditor ▸ h.document
  writable := heditor ▸ h.writable
  selections := (congrArg Editor.selections heditor).trans h.selections
  entries := hregisters ▸ h.entries
  inSync := h.inSync.congr (congrArg Editor.clipboard heditor) hregisters
  mode := hmode.trans h.mode

namespace Document.Separate

/-- The cursor of a piece comes to rest where the piece has been. -/
theorem removedTo_eq (h : d.Separate rs) {r : Range} (hr : r ∈ rs) (sel : Selection) :
    OperatorKind.delete.removedTo .gap d (d.without rs) ⟨d.removals rs⟩ false (sel, some r) =
      d.spotOf rs r := by
  have hlinewise : r.isLinewise = false := by rw [Range.isLinewise, (h.piece r hr).lines]; rfl
  have hspot : (d.without rs).InBounds (d.spotOf rs r) := inBounds_spotOf r
  simp only [OperatorKind.removedTo, Option.map_some, Option.getD_some, reduceCtorEq, ↓reduceIte,
    Option.any_some, hlinewise, Bool.false_eq_true]
  change Placement.gap.clamp (d.without rs) (d.spotOf rs r) = d.spotOf rs r
  rw [Placement.clamp, Document.clamp_of_inBounds _ hspot, Placement.maxCol,
    Nat.min_eq_left hspot.2]

/-- Every cursor comes to rest where its piece has been. -/
theorem map_removedTo (h : d.Separate rs) {targets : List Target}
    (htargets : targets.map (·.2) = rs.map some) :
    targets.map (OperatorKind.delete.removedTo .gap d (d.without rs) ⟨d.removals rs⟩ false) =
      rs.map (d.spotOf rs) := by
  have hspot : ∀ t ∈ targets, OperatorKind.delete.removedTo .gap d (d.without rs)
      ⟨d.removals rs⟩ false t = (t.2.map (d.spotOf rs)).getD .origin := by
    rintro ⟨sel, found⟩ ht
    have hmem : found ∈ rs.map some := htargets ▸ List.mem_map_of_mem (f := Prod.snd) ht
    obtain ⟨r, hr, rfl⟩ := List.mem_map.1 hmem
    exact h.removedTo_eq hr sel
  have := congrArg (List.map fun found => (found.map (d.spotOf rs)).getD .origin) htargets
  rw [List.map_map, List.map_map] at this
  exact (List.map_congr_left hspot).trans this

/-- **Separate pieces are deleted one by one.** -/
theorem apply_delete (h : d.Separate rs) (hne : rs ≠ []) {s : State} {targets : List Target}
    (htargets : targets.map (·.2) = rs.map some) (hdoc : s.editor.document = some d)
    (hreadonly : s.editor.readonly = false) :
    ∃ s', OperatorKind.delete.apply .gap d targets false s = .ok () s' ∧ d.Deleted rs s' := by
  have hranges : targets.filterMap (·.2) = rs := by
    have := congrArg (List.filterMap id) htargets
    rwa [List.filterMap_map, List.filterMap_map, Function.id_comp, Function.id_comp,
      List.filterMap_some] at this
  have happly := OperatorKind.apply_delete_of_edit .gap false hdoc hreadonly hranges
    h.edit_deletions_eq
  rw [entries_mergeRanges h.piece, h.pieces_eq, h.map_removedTo htargets] at happly
  have hentries : ((ordered rs).map fun q => RegisterEntry.charwise (d.slice q)) ≠ [] := by
    have hlen := (ordered_perm rs).length_eq
    intro hnil
    rw [List.map_eq_nil_iff] at hnil
    rw [hnil] at hlen
    exact hne (List.length_eq_zero_iff.1 hlen.symm)
  refine ⟨_, happly, by simp, ?_, ?_, ?_, ?_, by simp⟩
  · rw [State.readonly_eq] at hreadonly ⊢
    simpa using hreadonly
  · rw [State.selections_setMode, State.selections_setCursors, eraseDups_eq_self h.nodup_spotOf,
      List.map_map]
    rfl
  · simp [State.entries_writeRegisters, hentries]
  · exact (State.inSync_writeRegisters (s.edited (d.without rs)) hentries).congr (by simp) (by simp)

/-- The entry of a cursor is the piece that has been there. -/
theorem pasteEntries_eq (h : d.Separate rs) {s : State} (hs : d.Deleted rs s) :
    s.pasteEntries = rs.map fun r => .charwise (d.slice r) := by
  have hlength : s.selections.length = s.session.registers.entries.length := by
    rw [hs.selections, hs.entries, List.length_map, List.length_map, (ordered_perm rs).length_eq]
  rw [State.pasteEntries, hlength, Registers.forCursors_length, hs.selections, hs.entries]
  refine byPosition_map (fun r => .charwise (d.slice r)) (ordered_perm rs) ?_
  simpa only [Selection.start_cursor] using h.pairwise_spotOf

/-- **A paste before the cursors restores the text.** -/
theorem ends_paste (h : d.Separate rs) (hne : rs ≠ []) {s : State} (hs : d.Deleted rs s)
    (pl : Placement) :
    (Step.paste pl (d.without rs) false).Ends s (fun _ s' => s'.editor.document = some d)
      fun _ _ => False := by
  have hentries := h.pasteEntries_eq hs
  have hnotEmpty : s.pasteEntries.isEmpty = false := by
    rw [hentries]
    simpa using hne
  have hedits : s.pasteEdits (d.without rs) false =
      rs.map fun r => Edit.insert (d.spotOf rs r) (d.slice r) := by
    rw [State.pasteEdits, hentries, hs.selections, List.zipWith_map, List.zipWith_self]
    refine List.map_congr_left fun r _ => ?_
    simp [pasteEdit, Selection.cursor, (d.without rs).clamp_of_inBounds (inBounds_spotOf r)]
  obtain ⟨plan, hedit⟩ := h.edit_puttingBack
  simp only [Step.paste, Step.ends_bind, Step.ends_modify, Step.ends_get,
    hs.inSync.syncRegisters_eq, hnotEmpty, Bool.false_eq_true, ↓reduceIte]
  rw [hedits, Step.ends_of_ok (Step.commit_of_edit hs.document hs.writable hedit)]
  simp

end Document.Separate

end ModalEdit
