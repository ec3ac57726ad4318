import Mathlib.Order.Monotone.Basic
import ModalEdit.Proofs.Text.Rebuild

/-!
# Where offsets are followed to

`Plan.mapOffset` walks through the edits of a plan with running totals, as `Plan.placed` does, and
stops at the first edit that ends behind the offset. It says where the character at an offset of the
old text is in the new one (`getElem?_follow`). A character that is replaced is followed to the text
in its place (`Plan.follow_of_mem_placed`), and the end of the old text to the end of the new one
(`follow_size`).

`Document.mapOffset_tracks` puts this together for every batch that is accepted.
-/

namespace ModalEdit

variable {t : Text} {pos size start stop o o' added removed : Nat} {es : List OffsetEdit}

/-- A character of a piece of a text. -/
theorem getElem?_cut (hstart : start ≤ o) (hstop : o < stop) :
    (cut t start stop)[o - start]? = t[o]? := by
  rw [cut, List.getElem?_take_of_lt (by omega), List.getElem?_drop, Nat.add_sub_cancel' hstart]

namespace Plan

/-! ### The walk -/

/-- No offset is followed to a place before the edits still to come. -/
theorem le_follow (h : InSequence size pos es) (htotal : removed ≤ pos + added) (ho : pos ≤ o) :
    pos + added ≤ follow added removed es o + removed := by
  induction es generalizing pos added removed with
  | nil =>
    rw [follow]
    omega
  | cons e es ih =>
    obtain ⟨hstart, hle, hrest⟩ := h
    rcases Nat.lt_or_ge o e.start with hlt | hge
    · rw [follow_of_lt hlt]
      omega
    · rcases Nat.lt_or_ge o e.stop with hin | hbehind
      · rw [follow_of_inside hge hin]
        omega
      · have htotal' : removed + (e.stop - e.start) ≤ e.stop + (added + e.text.length) := by omega
        have := ih hrest htotal' hbehind
        rw [follow_of_le hle hbehind]
        omega

/-- Offsets keep their order. -/
theorem follow_mono (h : InSequence size pos es) (htotal : removed ≤ pos + added) (ho : pos ≤ o)
    (hoo' : o ≤ o') : follow added removed es o ≤ follow added removed es o' := by
  induction es generalizing pos added removed with
  | nil =>
    rw [follow, follow]
    omega
  | cons e es ih =>
    obtain ⟨hstart, hle, hrest⟩ := h
    rcases Nat.lt_or_ge o' e.stop with hbefore | hbehind
    · -- Both are followed to places up to the text of this edit.
      rw [follow, follow, if_pos (Nat.lt_of_le_of_lt hoo' hbefore), if_pos hbefore]
      split <;> split <;> omega
    · have htotal' : removed + (e.stop - e.start) ≤ e.stop + (added + e.text.length) := by omega
      have hplace := le_follow hrest htotal' hbehind
      rcases Nat.lt_or_ge o e.stop with hin | hpast
      · rw [follow_of_le hle hbehind, follow, if_pos hin]
        split <;> omega
      · rw [follow_of_le hle hbehind, follow_of_le hle hpast]
        exact ih hrest htotal' hpast

/-- **A character that is not replaced is where it is followed to.** `pre` is what the edits before
have made of the text up to `pos`. -/
theorem getElem?_follow (pre : Text) (h : InSequence t.length pos es)
    (hpre : pre.length + removed = pos + added) (hpos : pos ≤ o)
    (hkept : ∀ e ∈ es, ¬ (e.start ≤ o ∧ o < e.stop)) :
    (pre ++ rebuild t pos es)[follow added removed es o]? = t[o]? := by
  induction es generalizing pos pre added removed with
  | nil =>
    rw [follow, rebuild, List.getElem?_append_right (by omega), List.getElem?_drop]
    congr 1
    omega
  | cons e es ih =>
    have hpre' := length_append_cut pre h hpre
    obtain ⟨hstart, hle, hrest⟩ := h
    obtain ⟨hout, hkept⟩ := List.forall_mem_cons.1 hkept
    have hlen : (cut t pos e.start).length = e.start - pos :=
      length_cut (Nat.le_trans hle hrest.le_size)
    rcases Nat.lt_or_ge o e.start with hlt | hge
    · -- It is in front of this edit.
      have hplace : o + added - removed - pre.length = o - pos := by omega
      rw [follow_of_lt hlt, rebuild, List.append_assoc, List.getElem?_append_right (by omega),
        hplace, List.getElem?_append_left (by omega), getElem?_cut hpos hlt]
    · have hbehind : e.stop ≤ o := Nat.le_of_not_lt fun hin => hout ⟨hge, hin⟩
      rw [follow_of_le hle hbehind, ← ih _ hrest hpre' hbehind hkept, rebuild,
        List.append_assoc pre]

/-- The end of the old text is followed to the end of the new one. -/
theorem follow_size (h : InSequence t.length pos es) (pre : Text)
    (hpre : pre.length + removed = pos + added) :
    follow added removed es t.length = (pre ++ rebuild t pos es).length := by
  induction es generalizing pos pre added removed with
  | nil =>
    have hpos : pos ≤ t.length := h
    rw [follow, rebuild, List.length_append, List.length_drop]
    omega
  | cons e es ih =>
    have hpre' := length_append_cut pre h hpre
    obtain ⟨hstart, hle, hrest⟩ := h
    rw [follow_of_le hle hrest.le_size, ih hrest _ hpre', rebuild, List.append_assoc pre]

/-- **The running totals never go below zero**: an offset outside all pieces is moved by what the
edits that end before it add and remove. -/
theorem follow_eq_shift (h : InSequence size pos es) (htotal : removed ≤ pos + added)
    (ho : pos ≤ o) (hkept : ∀ e ∈ es, ¬ (e.start ≤ o ∧ o < e.stop)) :
    (follow added removed es o : ℤ) =
      o + added - removed + shift (es.takeWhile fun e => decide (e.stop ≤ o)) := by
  induction es generalizing pos added removed with
  | nil =>
    rw [follow, List.takeWhile_nil, shift, List.map_nil, List.sum_nil]
    omega
  | cons e es ih =>
    obtain ⟨hstart, hle, hrest⟩ := h
    obtain ⟨hout, hkept⟩ := List.forall_mem_cons.1 hkept
    rcases Nat.lt_or_ge o e.start with hlt | hge
    · have hahead : ¬ e.stop ≤ o := by omega
      rw [follow_of_lt hlt, List.takeWhile_cons_of_neg (by simpa using hahead), shift,
        List.map_nil, List.sum_nil]
      omega
    · have hbehind : e.stop ≤ o := Nat.le_of_not_lt fun hin => hout ⟨hge, hin⟩
      rw [follow_of_le hle hbehind, ih hrest (by omega) hbehind hkept,
        List.takeWhile_cons_of_pos (by simpa using hbehind), shift, shift, List.map_cons,
        List.sum_cons]
      push_cast
      omega

end Plan

/-! ### Accepted batches -/

namespace Document

variable {d after : Document} {edits : List Edit} {plan : Plan}

/-- The plan follows the offsets of a document into the document after the edits. -/
structure Tracks (d : Document) (edits : List Edit) (after : Document) (plan : Plan) : Prop where
  /-- Offsets keep their order. -/
  mono : Monotone plan.mapOffset
  /-- No offset is followed to a place behind the end. -/
  le_size : ∀ o ≤ d.size, plan.mapOffset o ≤ after.size
  /-- A character that is not replaced is where its offset is followed to, moved by the edits that
  end before it. -/
  kept : ∀ o < d.size,
    (∀ e ∈ edits, ¬ (d.offsetOf e.range.start ≤ o ∧ o < d.offsetOf e.range.stop)) →
      after.charAtOffset? (plan.mapOffset o) = d.charAtOffset? o ∧
        (plan.mapOffset o : ℤ) =
          o + shift (plan.edits.takeWhile fun e => decide (e.stop ≤ o))
  /-- The offsets of a piece that is replaced are followed to where the text in its place begins. -/
  replaced : ∀ i e, edits[i]? = some e → ∀ o, d.offsetOf e.range.start ≤ o →
    o < d.offsetOf e.range.stop → plan.startOf? i = some (plan.mapOffset o)
  /-- The end is followed to the end. -/
  size : plan.mapOffset d.size = after.size

/-- **The plan of an accepted batch follows the characters**, the ranges running forward. -/
theorem mapOffset_tracks (hle : ∀ e ∈ edits, e.range.start ≤ e.range.stop)
    (hedit : d.edit edits = .ok (after, plan)) : d.Tracks edits after plan := by
  obtain ⟨hplan, -⟩ := edit_eq_ok_iff.1 hedit
  obtain ⟨hin, -, hedits⟩ := plan_eq_ok_iff.1 hplan
  have hfits : ∀ e ∈ edits, d.Fits e.range := fun e he => ⟨(hin e he).1, (hin e he).2, hle e he⟩
  have hseq := inSequence_of_plan hfits hplan
  have htext := text_of_edit hfits hedit
  have hmono : Monotone plan.mapOffset := fun o o' hoo' =>
    Plan.follow_mono hseq (Nat.zero_le _) (Nat.zero_le _) hoo'
  have hsize : plan.mapOffset d.size = after.size := by
    rw [Document.size, Document.size, htext]
    exact Plan.follow_size hseq [] rfl
  refine ⟨hmono, fun o ho => hsize ▸ hmono ho, fun o ho hkept => ?_,
    fun i e hi o hstart hstop => ?_, hsize⟩
  · have hkept' : ∀ f ∈ plan.edits, ¬ (f.start ≤ o ∧ o < f.stop) := by
      intro f hf
      rw [hedits] at hf
      obtain ⟨e, he, hstart, hstop, -⟩ := exists_of_mem_inOrder hf
      rw [hstart, hstop]
      exact hkept e he
    have htotal : 0 ≤ 0 + 0 := Nat.le_refl 0
    have hshift := Plan.follow_eq_shift hseq htotal (Nat.zero_le o) hkept'
    refine ⟨?_, by simpa [Plan.mapOffset] using hshift⟩
    rw [charAtOffset?, charAtOffset?, htext]
    exact Plan.getElem?_follow [] hseq rfl (Nat.zero_le o) hkept'
  · obtain ⟨f, start, rfl, hmem, hfind⟩ := exists_placed_of_plan hplan hi
    rw [Plan.startOf?, hfind, Plan.mapOffset, Plan.follow_of_mem_placed hseq hmem hstart hstop]
    rfl

/-- A piece taken out, an insertion behind it, and another one at its start. -/
theorem mapOffset_tracks_insertions :
    let d := ofText "aa bb cc".toList
    let edits : List Edit := [.insert ⟨0, 0⟩ ['>'], .delete ⟨⟨0, 0⟩, ⟨0, 3⟩, none⟩,
      .insert ⟨0, 6⟩ ['X', 'Y']]
    let plan : Plan := ⟨[⟨0, 0, ['>'], 0⟩, ⟨0, 3, [], 1⟩, ⟨6, 6, ['X', 'Y'], 2⟩]⟩
    (∀ e ∈ edits, e.range.start ≤ e.range.stop) ∧
      d.edit edits = .ok (ofText ">bb XYcc".toList, plan) ∧
        d.Tracks edits (ofText ">bb XYcc".toList) plan ∧
          (List.range 9).map plan.mapOffset = [1, 1, 1, 1, 2, 3, 6, 7, 8] := by
  intro d edits plan
  have hle : ∀ e ∈ edits, e.range.start ≤ e.range.stop := by decide
  have horder : d.inOrder edits = plan.edits := inOrder_eq_of_perm (by decide) (by decide)
  have hedit : d.edit edits = .ok (ofText ">bb XYcc".toList, plan) := by
    refine edit_eq_ok_iff.2 ⟨?_, by rfl⟩
    rw [plan_of_inBounds (by decide), horder]
    rfl
  exact ⟨hle, hedit, mapOffset_tracks hle hedit, by decide⟩

end Document

end ModalEdit
