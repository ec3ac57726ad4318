import ModalEdit.Proofs.Operator.Removal
import ModalEdit.Proofs.Register
import ModalEdit.Proofs.Text.Pick

/-!
# Deleting pieces of characters

Pieces of characters may overlap, lie in one another, be equal or hold nothing. Merging keeps their
union (`Document.inUnion_mergeRanges`) and leaves pieces of which one ends before the next begins
(`Document.apart_mergeRanges`), so the deletion takes every character of the union once. What it
stores are the characters of the merged pieces, in document order
(`OperatorKind.delete_removes_union`).

No text is excepted, whatever its line breaks: a piece between two positions that share an offset
holds nothing and is not stored.
-/

namespace ModalEdit

variable {d : Document} {rs qs : List Range}

namespace Document

/-- The offset of a character in one of the ranges. -/
def inUnion (d : Document) (rs : List Range) (o : Nat) : Bool :=
  rs.any fun r => decide (d.offsetOf r.start ≤ o) && decide (o < d.offsetOf r.stop)

theorem inUnion_iff {o : Nat} :
    d.inUnion rs o = true ↔ ∃ r ∈ rs, d.offsetOf r.start ≤ o ∧ o < d.offsetOf r.stop := by
  simp [inUnion]

theorem inUnion_cons (r : Range) (rs : List Range) (o : Nat) :
    d.inUnion (r :: rs) o =
      (decide (d.offsetOf r.start ≤ o) && decide (o < d.offsetOf r.stop) || d.inUnion rs o) := rfl

theorem inUnion_mergeSort (le : Range → Range → Bool) (rs : List Range) (o : Nat) :
    d.inUnion (rs.mergeSort le) o = d.inUnion rs o :=
  (List.mergeSort_perm rs le).any_eq

/-- Ranges that hold nothing can be left out. -/
theorem inUnion_filter {keep : Range → Bool} (o : Nat)
    (h : ∀ r ∈ rs, keep r = false → d.offsetOf r.stop ≤ d.offsetOf r.start) :
    d.inUnion (rs.filter keep) o = d.inUnion rs o := by
  rw [Bool.eq_iff_iff, inUnion_iff, inUnion_iff]
  constructor
  · rintro ⟨r, hr, ho⟩
    exact ⟨r, (List.mem_filter.1 hr).1, ho⟩
  · rintro ⟨r, hr, hstart, hstop⟩
    refine ⟨r, List.mem_filter.2 ⟨hr, ?_⟩, hstart, hstop⟩
    by_contra hkeep
    have := h r hr (by simpa using hkeep)
    omega

theorem slice_eq_cut (r : Range) :
    d.slice r = cut d.text (d.offsetOf r.start) (d.offsetOf r.stop) := rfl

theorem slice_eq_nil_iff {r : Range} :
    d.slice r = [] ↔ d.offsetOf r.stop ≤ d.offsetOf r.start := by
  rw [slice_eq_cut, ← List.length_eq_zero_iff, length_cut (d.offsetOf_le_size _)]
  omega

/-! ### Deletions one behind the other -/

/-- Of two ranges the first ends before the second begins. -/
abbrev Follows (d : Document) (q q' : Range) : Prop := d.offsetOf q.stop ≤ d.offsetOf q'.start

/-- The batch that deletes ranges, by offsets. -/
abbrev offsetDeletions (d : Document) (qs : List Range) : List OffsetEdit :=
  d.offsetEdits 0 (qs.map Edit.delete)

theorem fits_delete (h : ∀ q ∈ qs, d.Fits q) : ∀ e ∈ qs.map Edit.delete, d.Fits e.range := by
  intro e he
  obtain ⟨q, hq, rfl⟩ := List.mem_map.1 he
  exact h q hq

theorem map_offsetDeletions (qs : List Range) :
    (d.offsetDeletions qs).map (fun e => (e.start, e.stop)) =
      qs.map fun q => (d.offsetOf q.start, d.offsetOf q.stop) := by
  rw [map_offsetEdits, List.map_map]
  rfl

theorem covered_offsetDeletions (qs : List Range) (o : Nat) :
    covered (d.offsetDeletions qs) o = d.inUnion qs o := by
  have h := congrArg (List.any · fun p => decide (p.1 ≤ o) && decide (o < p.2))
    (map_offsetDeletions (d := d) qs)
  rwa [List.any_map, List.any_map] at h

theorem cuts_offsetDeletions (qs : List Range) :
    (d.offsetDeletions qs).map (fun e => cut d.text e.start e.stop) = qs.map d.slice := by
  have h := congrArg (List.map fun p => cut d.text p.1 p.2) (map_offsetDeletions (d := d) qs)
  rwa [List.map_map, List.map_map] at h

theorem text_of_mem_offsetDeletions {k : Nat} {e : OffsetEdit}
    (he : e ∈ d.offsetEdits k (qs.map Edit.delete)) : e.text = [] := by
  induction qs generalizing k with
  | nil => cases he
  | cons q qs ih =>
    rcases List.mem_cons.1 he with rfl | he
    · rfl
    · exact ih he

/-- **Deletions one behind the other are accepted** and made in this order. -/
theorem edit_deletions (hfits : ∀ q ∈ qs, d.Fits q) (hapart : qs.Pairwise d.Follows) :
    InSequence d.size 0 (d.offsetDeletions qs) ∧
      d.edit (qs.map Edit.delete) =
        .ok (ofText (rebuild d.text 0 (d.offsetDeletions qs)), ⟨d.offsetDeletions qs⟩) := by
  have hsorted : (qs.map Edit.delete).Pairwise fun e f =>
      d.offsetOf e.range.start ≤ d.offsetOf f.range.start :=
    List.pairwise_map.2 <| hapart.imp_of_mem fun {q q'} hq _ h =>
      Nat.le_trans (hfits q hq).offsetOf_le h
  obtain ⟨plan, hplan⟩ := (exists_plan_iff_of_sorted (fits_delete hfits) hsorted).2
    (List.pairwise_map.2 hapart)
  have hseq := inSequence_of_plan (fits_delete hfits) hplan
  have hedit := edit_eq_ok_iff.2 ⟨hplan, rfl⟩
  have htext := text_of_edit (fits_delete hfits) hedit
  obtain ⟨-, -, rfl⟩ := plan_eq_ok_iff.1 hplan
  rw [inOrder_of_sorted hsorted] at hseq hedit htext
  refine ⟨hseq, ?_⟩
  rw [hedit, ← htext, text_ofText]

/-- Deletions one behind the other leave what is in none of the ranges. -/
theorem rebuild_offsetDeletions (hfits : ∀ q ∈ qs, d.Fits q) (hapart : qs.Pairwise d.Follows) :
    rebuild d.text 0 (d.offsetDeletions qs) = pick (fun o => !d.inUnion qs o) 0 d.text := by
  rw [rebuild_of_deletions (edit_deletions hfits hapart).1 fun _ => text_of_mem_offsetDeletions]
  simp only [covered_offsetDeletions, List.drop_zero]

/-- Ranges one behind the other hold the characters in one of them. -/
theorem flatten_slices (hfits : ∀ q ∈ qs, d.Fits q) (hapart : qs.Pairwise d.Follows) :
    (qs.map d.slice).flatten = pick (d.inUnion qs) 0 d.text := by
  rw [← cuts_offsetDeletions, flatten_cuts (edit_deletions hfits hapart).1, List.drop_zero]
  exact pick_congr fun o _ _ => covered_offsetDeletions qs o

/-! ### Merging -/

theorem isPiece_mergeFrom {last : Range} (hlast : d.IsPiece last) (hrs : ∀ r ∈ rs, d.IsPiece r) :
    ∀ q ∈ last.mergeFrom d rs, d.IsPiece q := by
  fun_induction Range.mergeFrom d last rs with
  | case1 last => simpa using hlast
  | case2 last r rs _ ih =>
    obtain ⟨hr, hrs⟩ := List.forall_mem_cons.1 hrs
    exact ih (hlast.isPiece_union hr.toFits (.inl hlast.lines)) hrs
  | case3 last r rs _ ih =>
    obtain ⟨hr, hrs⟩ := List.forall_mem_cons.1 hrs
    exact List.forall_mem_cons.2 ⟨hlast, ih hr hrs⟩

theorem isPiece_mergeRanges (hrs : ∀ r ∈ rs, d.IsPiece r) :
    ∀ q ∈ d.mergeRanges rs, d.IsPiece q := by
  have hsorted : ∀ r ∈ rs.mergeSort Range.precedes, d.IsPiece r := fun r hr =>
    hrs r (List.mem_mergeSort.1 hr)
  unfold mergeRanges
  split
  · simp
  · rename_i r rest heq
    rw [heq] at hsorted
    obtain ⟨hr, hrest⟩ := List.forall_mem_cons.1 hsorted
    exact isPiece_mergeFrom hr hrest

/-- Two pieces that are merged hold what the union of both holds. -/
theorem inUnion_union {r q : Range} (hr : d.IsPiece r) (hq : d.IsPiece q)
    (hle : r.start ≤ q.start) (hover : q.start < r.stop ∨ q = r) (rs : List Range) (o : Nat) :
    d.inUnion (r.union d q :: rs) o = d.inUnion (r :: q :: rs) o := by
  have hstart := offsetOf_mono hr.start hq.start hle
  have hmeet : d.offsetOf q.start ≤ d.offsetOf r.stop := by
    rcases hover with hlt | rfl
    · exact offsetOf_mono hq.start hr.stop (Position.le_of_lt hlt)
    · exact hq.offsetOf_le
  simp only [inUnion_cons, Range.union_of_lines_eq_none (.inl hr.lines) hr.le,
    offsetOf_max hr.stop hq.stop]
  rw [← Bool.or_assoc]
  congr 1
  rw [Bool.eq_iff_iff]
  simp only [Bool.or_eq_true, Bool.and_eq_true, decide_eq_true_eq]
  omega

theorem inUnion_mergeFrom {last : Range} (hlast : d.IsPiece last) (hrs : ∀ r ∈ rs, d.IsPiece r)
    (hfirst : ∀ r ∈ rs, last.start ≤ r.start)
    (hsorted : rs.Pairwise fun r r' => r.start ≤ r'.start) (o : Nat) :
    d.inUnion (last.mergeFrom d rs) o = d.inUnion (last :: rs) o := by
  fun_induction Range.mergeFrom d last rs with
  | case1 last => rfl
  | case2 last r rs hover ih =>
    obtain ⟨hr, hrs⟩ := List.forall_mem_cons.1 hrs
    obtain ⟨hle, hfirst⟩ := List.forall_mem_cons.1 hfirst
    have hunion := hlast.isPiece_union hr.toFits (.inl hlast.lines)
    have hstart : (last.union d r).start = last.start := by
      rw [Range.union_of_lines_eq_none (.inl hlast.lines) hlast.le]
    rw [ih hunion hrs (hstart ▸ hfirst) hsorted.of_cons, inUnion_union hlast hr hle hover]
  | case3 last r rs _ ih =>
    obtain ⟨hr, hrs⟩ := List.forall_mem_cons.1 hrs
    obtain ⟨hfirst', hsorted⟩ := List.pairwise_cons.1 hsorted
    rw [inUnion_cons, ih hr hrs hfirst' hsorted, ← inUnion_cons]

/-- **Merging pieces of characters keeps their union.** -/
theorem inUnion_mergeRanges (hrs : ∀ r ∈ rs, d.IsPiece r) (o : Nat) :
    d.inUnion (d.mergeRanges rs) o = d.inUnion rs o := by
  have hsorted := pairwise_start_mergeSort rs
  have hmem : ∀ r ∈ rs.mergeSort Range.precedes, d.IsPiece r := fun r hr =>
    hrs r (List.mem_mergeSort.1 hr)
  rw [← inUnion_mergeSort Range.precedes rs]
  unfold mergeRanges
  split
  · rename_i heq
    rw [heq]
  · rename_i r rest heq
    rw [heq] at hsorted hmem ⊢
    obtain ⟨hr, hrest⟩ := List.forall_mem_cons.1 hmem
    obtain ⟨hfirst, hsorted⟩ := List.pairwise_cons.1 hsorted
    exact inUnion_mergeFrom hr hrest hfirst hsorted o

/-- Merged ranges that take no line break lie one behind the other. -/
theorem follows_mergeRanges (hrs : ∀ r ∈ rs, d.IsSpan false r) :
    (d.mergeRanges rs).Pairwise d.Follows := by
  have hregular : d.Regular false rs := ⟨hrs, nofun⟩
  exact hregular.apart fun c hc => Bool.false_ne_true (hc.whole hregular).1

/-- **Merged pieces of characters lie one behind the other.** -/
theorem apart_mergeRanges (hrs : ∀ r ∈ rs, d.IsPiece r) :
    (d.mergeRanges rs).Pairwise d.Follows :=
  follows_mergeRanges fun r hr => .chars (hrs r hr)

/-! ### What is deleted and what is stored -/

/-- The merged pieces that hold something. -/
def pieces (d : Document) (rs : List Range) : List Range :=
  (d.mergeRanges rs).filter fun q => !(d.slice q).isEmpty

/-- The pieces that hold something lie one behind the other, and their characters are those of the
ranges. -/
theorem pieces_spec (hrs : ∀ r ∈ rs, d.IsPiece r) :
    (∀ q ∈ d.pieces rs, d.Fits q ∧ d.slice q ≠ [] ∧
        ∀ o, d.offsetOf q.start ≤ o → o < d.offsetOf q.stop → d.inUnion rs o = true) ∧
      (d.pieces rs).Pairwise d.Follows ∧
        ((d.pieces rs).map d.slice).flatten = pick (d.inUnion rs) 0 d.text := by
  have hfits : ∀ q ∈ d.pieces rs, d.Fits q := fun q hq =>
    (isPiece_mergeRanges hrs q (List.mem_filter.1 hq).1).toFits
  have hapart : (d.pieces rs).Pairwise d.Follows := (apart_mergeRanges hrs).filter _
  refine ⟨fun q hq => ⟨hfits q hq, ?_, fun o hstart hstop => ?_⟩, hapart, ?_⟩
  · simpa using (List.mem_filter.1 hq).2
  · rw [← inUnion_mergeRanges hrs]
    exact inUnion_iff.2 ⟨q, (List.mem_filter.1 hq).1, hstart, hstop⟩
  · rw [flatten_slices hfits hapart]
    refine pick_congr fun o _ _ => ?_
    rw [pieces, inUnion_filter, inUnion_mergeRanges hrs]
    intro q _ hempty
    rw [← slice_eq_nil_iff]
    simpa using hempty

/-- The register entries of merged pieces are the characters of those that hold something. -/
theorem entries_mergeRanges (hrs : ∀ r ∈ rs, d.IsPiece r) :
    ((d.mergeRanges rs).map d.registerEntry).filter (fun e => !e.text.isEmpty) =
      (d.pieces rs).map fun q => .charwise (d.slice q) := by
  have hentries : (d.mergeRanges rs).map d.registerEntry =
      (d.mergeRanges rs).map fun q => .charwise (d.slice q) := by
    refine List.map_congr_left fun q hq => ?_
    rw [registerEntry, (isPiece_mergeRanges hrs q hq).lines]
  rw [hentries, List.filter_map, pieces]
  simp only [Function.comp_def, RegisterEntry.text_charwise]

/-- **The deletions of merged pieces are accepted** and leave what is in none of the ranges. -/
theorem edit_deletions_mergeRanges (hrs : ∀ r ∈ rs, d.IsPiece r) :
    ∃ plan, d.edit (OperatorKind.deletions (d.mergeRanges rs)) =
      .ok (ofText (pick (fun o => !d.inUnion rs o) 0 d.text), plan) := by
  have hfits : ∀ q ∈ (d.mergeRanges rs).filter (fun r => !r.isEmpty), d.Fits q := fun q hq =>
    (isPiece_mergeRanges hrs q (List.mem_filter.1 hq).1).toFits
  have hapart : ((d.mergeRanges rs).filter fun r => !r.isEmpty).Pairwise d.Follows :=
    (apart_mergeRanges hrs).filter _
  have hunion : ∀ o, d.inUnion ((d.mergeRanges rs).filter fun r => !r.isEmpty) o =
      d.inUnion rs o := by
    intro o
    rw [inUnion_filter, inUnion_mergeRanges hrs]
    intro q _ hempty
    simp only [Range.isEmpty, Bool.not_eq_false', beq_iff_eq] at hempty
    rw [hempty]
  have hedit := (edit_deletions hfits hapart).2
  rw [rebuild_offsetDeletions hfits hapart] at hedit
  simp only [hunion] at hedit
  exact ⟨_, hedit⟩

/-- The deletions of merged ranges that take no line break are accepted. -/
theorem exists_edit_deletions (hrs : ∀ r ∈ rs, d.IsSpan false r) :
    ∃ after plan, d.edit (OperatorKind.deletions (d.mergeRanges rs)) = .ok (after, plan) := by
  have hfits : ∀ q ∈ (d.mergeRanges rs).filter (fun r => !r.isEmpty), d.Fits q := fun q hq =>
    fits_mergeRanges (fun r hr => (hrs r hr).fits) q (List.mem_filter.1 hq).1
  exact ⟨_, _, (edit_deletions hfits ((follows_mergeRanges hrs).filter _)).2⟩

end Document

namespace OperatorKind

open Document

/-- The state that an operator which removes leads to when its batch is accepted. -/
theorem apply_of_edit (pl : Placement) {kind : OperatorKind} (hkind : kind ≠ .yank)
    {targets : List Target} (ofSelection : Bool) {s : State} {after : Document} {plan : Plan}
    (hdoc : s.editor.document = some d) (hreadonly : s.editor.readonly = false)
    (htargets : targets.filterMap (·.2) = rs)
    (hedit : d.edit (deletions (d.mergeRanges rs)) = .ok (after, plan)) :
    kind.apply pl d targets ofSelection s =
      .ok () ((((s.edited after).writeRegisters
        (((d.mergeRanges rs).map d.registerEntry).filter fun e => !e.text.isEmpty)).setCursors
          (targets.map (kind.removedTo pl d after plan ofSelection))).setMode
            (if kind = .change then .insert else .normal)) := by
  simp only [apply, htargets, hkind, ↓reduceIte, bind, EStateM.bind,
    Step.commit_of_edit hdoc hreadonly hedit]
  rfl

/-- The state that a deletion leads to when its batch is accepted. -/
theorem apply_delete_of_edit (pl : Placement) {targets : List Target} (ofSelection : Bool)
    {s : State} {after : Document} {plan : Plan} (hdoc : s.editor.document = some d)
    (hreadonly : s.editor.readonly = false) (htargets : targets.filterMap (·.2) = rs)
    (hedit : d.edit (deletions (d.mergeRanges rs)) = .ok (after, plan)) :
    delete.apply pl d targets ofSelection s =
      .ok () ((((s.edited after).writeRegisters
        (((d.mergeRanges rs).map d.registerEntry).filter fun e => !e.text.isEmpty)).setCursors
          (targets.map (delete.removedTo pl d after plan ofSelection))).setMode .normal) :=
  apply_of_edit pl (by decide : delete ≠ .yank) ofSelection hdoc hreadonly htargets hedit

/-- An operator runs if the editor takes edits and no range takes a line break. -/
theorem ends_apply_of_spans (kind : OperatorKind) (pl : Placement)
    {targets : List Target} (ofSelection : Bool) {s : State} (hd : s.editor.document = some d)
    (hreadonly : s.editor.readonly = false)
    (hspans : kind = .yank ∨ ∀ r ∈ targets.filterMap (·.2), d.IsSpan false r) :
    (kind.apply pl d targets ofSelection).Ends s (fun _ _ => True) fun _ _ => False := by
  unfold apply
  dsimp only
  split
  · exact trivial
  · rename_i hkind
    obtain ⟨after, plan, hedit⟩ := exists_edit_deletions (hspans.resolve_left hkind)
    rw [Step.ends_bind, Step.ends_of_ok (Step.commit_of_edit hd hreadonly hedit)]
    exact trivial

/-- An operator on pieces of characters runs if the editor takes edits. -/
theorem ends_apply_of_pieces (kind : OperatorKind) (pl : Placement)
    {targets : List Target} (ofSelection : Bool) {s : State} (hd : s.editor.document = some d)
    (hreadonly : s.editor.readonly = false)
    (hpieces : ∀ r ∈ targets.filterMap (·.2), d.IsPiece r) :
    (kind.apply pl d targets ofSelection).Ends s (fun _ _ => True) fun _ _ => False :=
  kind.ends_apply_of_spans pl ofSelection hd hreadonly (.inr fun r hr => .chars (hpieces r hr))

/-- **The deletion takes out the union of the ranges and stores it.** It succeeds, every character
in one of the ranges is gone and every other one is left. The entries are the characters of pieces
that lie in the union one behind the other, and together they are what has been taken out. When
that is nothing the text and the registers stay as they are. -/
theorem delete_removes_union (pl : Placement) (d : Document) (targets : List Target)
    (ofSelection : Bool) (s : State) (hdoc : s.editor.document = some d)
    (hreadonly : s.editor.readonly = false)
    (htargets : ∀ r ∈ targets.filterMap (·.2), d.IsPiece r) :
    let rs := targets.filterMap (·.2)
    let removed := pick (d.inUnion rs) 0 d.text
    ∃ s' after, delete.apply pl d targets ofSelection s = .ok () s' ∧
      s'.editor.document = some after ∧ after.text = pick (fun o => !d.inUnion rs o) 0 d.text ∧
        ∃ pieces : List Range,
          (∀ q ∈ pieces, d.Fits q ∧ d.slice q ≠ [] ∧
            ∀ o, d.offsetOf q.start ≤ o → o < d.offsetOf q.stop → d.inUnion rs o = true) ∧
          pieces.Pairwise d.Follows ∧ (pieces.map d.slice).flatten = removed ∧
          (removed ≠ [] →
            s'.session.registers.entries = pieces.map fun q => .charwise (d.slice q)) ∧
          (removed = [] → after.text = d.text ∧ s'.session.registers = s.session.registers ∧
            s'.editor.clipboard = s.editor.clipboard) := by
  intro rs removed
  obtain ⟨hpieces, hapart, hflatten⟩ := pieces_spec htargets
  obtain ⟨plan, hedit⟩ := edit_deletions_mergeRanges htargets
  have happly := apply_delete_of_edit pl ofSelection hdoc hreadonly rfl hedit
  rw [entries_mergeRanges htargets] at happly
  refine ⟨_, ofText (pick (fun o => !d.inUnion rs o) 0 d.text), happly, by simp [rs], rfl,
    d.pieces rs, hpieces, hapart, hflatten, fun hne => ?_,
    fun hnil => ⟨pick_not_of_pick_eq_nil hnil, ?_⟩⟩
  · have hstored : d.pieces rs ≠ [] := by
      intro hnil
      rw [hnil] at hflatten
      exact hne hflatten.symm
    simp [State.entries_writeRegisters, hstored, rs]
  · have hstored : d.pieces rs = [] := by
      refine List.eq_nil_iff_forall_not_mem.2 fun q hq => (hpieces q hq).2.1 ?_
      exact List.flatten_eq_nil_iff.1 (hflatten.trans hnil) _ (List.mem_map_of_mem hq)
    simp [hstored, rs]

/-- Five cursors: two pieces that overlap, one that holds nothing, one cursor without a piece, and
one piece on the next line. -/
theorem delete_removes_union_of_overlapping :
    let d := Document.ofText ['a', 'b', 'c', 'd', '\n', 'e', 'f']
    let s : State := { editor := .ofDocument d [⟨0, 1⟩, ⟨0, 2⟩, ⟨0, 4⟩, ⟨1, 2⟩, ⟨1, 0⟩] }
    let targets : List Target := s.selections.zip [some ⟨⟨0, 1⟩, ⟨0, 3⟩, none⟩,
      some ⟨⟨0, 0⟩, ⟨0, 2⟩, none⟩, some ⟨⟨0, 4⟩, ⟨0, 4⟩, none⟩, none,
      some ⟨⟨1, 0⟩, ⟨1, 1⟩, none⟩]
    (∀ r ∈ targets.filterMap (·.2), d.IsPiece r) ∧
      ∃ s' after, delete.apply .gap d targets false s = .ok () s' ∧
        s'.editor.document = some after ∧ after.text = ['d', '\n', 'f'] ∧
          ∃ pieces : List Range, (pieces.map d.slice).flatten = ['a', 'b', 'c', 'e'] ∧
            s'.session.registers.entries = pieces.map fun q => .charwise (d.slice q) := by
  intro d s targets
  have hpieces : ∀ r ∈ targets.filterMap (·.2), d.IsPiece r := by
    intro r hr
    simp [targets, s, Editor.ofDocument, State.selections] at hr
    rcases hr with rfl | rfl | rfl | rfl <;> exact ⟨⟨by decide, by decide, by decide⟩, rfl⟩
  obtain ⟨s', after, happly, hafter, htext, pieces, -, -, hflatten, hstored, -⟩ :=
    delete_removes_union .gap d targets false s rfl rfl hpieces
  have hremoved : pick (d.inUnion (targets.filterMap (·.2))) 0 d.text = ['a', 'b', 'c', 'e'] := by
    decide
  have hleft : pick (fun o => !d.inUnion (targets.filterMap (·.2)) o) 0 d.text =
      ['d', '\n', 'f'] := by decide
  rw [hremoved] at hflatten hstored
  exact ⟨hpieces, s', after, happly, hafter, htext.trans hleft, pieces, hflatten,
    hstored (by decide)⟩

end OperatorKind

end ModalEdit
