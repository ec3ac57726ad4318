import ModalEdit.Proofs.Text.Accepted
import ModalEdit.Proofs.Text.Contents
import ModalEdit.Proofs.Text.Copies

/-!
# Characters in the place of others

Edits that each put one character in the place of another leave every offset where it is: the new
text is the old one with the character at the offsets of the edits (`rebuild_eq_overwrite`). At
different positions such edits are made in one batch (`Document.Spots.edit_overwrites`). If each
stands on a character of its line and what they put in is no line break, the lines stay as they are
but for these characters (`Document.Spots.contents_overwrite`), and so do all positions
(`Document.Spots.positionAt_overwrite`).
-/

namespace ModalEdit

/-- The text with the character `c` at each of the offsets. -/
def overwrite (os : List Nat) (c : Char) (t : Text) : Text :=
  t.mapIdx fun o x => if o ∈ os then c else x

variable {t : Text} {pos : Nat} {es : List OffsetEdit} {c : Char} {os os' : List Nat}

/-- Edits that replace one character by another keep the offsets. -/
theorem getElem?_rebuild (h : InSequence t.length pos es)
    (hone : ∀ e ∈ es, e.stop = e.start + 1 ∧ e.text = [c]) (i : Nat) :
    (rebuild t pos es)[i]? = if pos + i ∈ es.map (·.start) then some c else t[pos + i]? := by
  induction es generalizing pos i with
  | nil => rw [rebuild, List.getElem?_drop, List.map_nil, if_neg List.not_mem_nil]
  | cons e es ih =>
    obtain ⟨hstart, hle, hrest⟩ := h
    obtain ⟨⟨hstop, htext⟩, hone⟩ := List.forall_mem_cons.1 hone
    have hbehind := hrest.le_start
    have hlen : (cut t pos e.start).length = e.start - pos :=
      length_cut (Nat.le_trans hle hrest.le_size)
    simp only [rebuild, htext, List.map_cons, List.mem_cons, List.append_assoc]
    rcases Nat.lt_trichotomy (pos + i) e.start with hlt | heq | hgt
    · -- Before the edit the text is kept.
      have hnone : pos + i ∉ es.map (·.start) := by
        intro hmem
        obtain ⟨f, hf, heq⟩ := List.mem_map.1 hmem
        have := hbehind f hf
        omega
      have hne : pos + i ≠ e.start := by omega
      rw [if_neg (not_or.2 ⟨hne, hnone⟩), List.getElem?_append_left (by omega), cut,
        List.getElem?_take_of_lt (by omega), List.getElem?_drop]
    · have hi : i = (cut t pos e.start).length := by omega
      rw [if_pos (.inl heq), hi, List.getElem?_append_right (Nat.le_refl _), Nat.sub_self]
      rfl
    · obtain ⟨k, hk⟩ := Nat.exists_eq_add_of_lt hgt
      have hi : i - (cut t pos e.start).length = k + 1 := by omega
      have hplace : e.stop + k = pos + i := by omega
      have hne : pos + i ≠ e.start := by omega
      rw [List.getElem?_append_right (by omega), hi, List.singleton_append,
        List.getElem?_cons_succ, ih hrest hone, hplace]
      simp only [hne, false_or]

theorem overwrite_congr (h : ∀ o, o ∈ os ↔ o ∈ os') : overwrite os c t = overwrite os' c t := by
  simp only [overwrite, h]

/-- **The text is overwritten.** -/
theorem rebuild_eq_overwrite (h : InSequence t.length 0 es)
    (hone : ∀ e ∈ es, e.stop = e.start + 1 ∧ e.text = [c]) :
    rebuild t 0 es = overwrite (es.map (·.start)) c t := by
  refine List.ext_getElem? fun i => ?_
  rw [getElem?_rebuild h hone, Nat.zero_add, overwrite, List.getElem?_mapIdx]
  split
  · rename_i hmem
    obtain ⟨e, he, rfl⟩ := List.mem_map.1 hmem
    have hlt : e.start < t.length := by
      have := h.stop_le_size e he
      have := (hone e he).1
      omega
    rw [List.getElem?_eq_getElem hlt, Option.map_some]
  · rw [Option.map_id']

namespace Document

variable {d after : Document} {ps : List Position} {p : Position}

/-- The edits that put a character in the place of the one behind each position. -/
def overwrites (ps : List Position) (c : Char) : List Edit :=
  ps.map fun p => .replace ⟨p, ⟨p.line, p.col + 1⟩, none⟩ [c]

/-- The lines of the document with the character `c` at each of the positions. -/
def overwritten (d : Document) (ps : List Position) (c : Char) : List Text :=
  d.contents.mapIdx fun i l => l.mapIdx fun k x => if ⟨i, k⟩ ∈ ps then c else x

theorem length_overwritten (d : Document) (ps : List Position) (c : Char) :
    (d.overwritten ps c).length = d.lineCount := by
  rw [overwritten, List.length_mapIdx, length_contents]

theorem starts_overwrites (d : Document) (ps : List Position) (c : Char) :
    (overwrites ps c).map (fun e => d.offsetOf e.range.start) = ps.map d.offsetOf := by
  rw [overwrites, List.map_map]
  rfl

/-- Different positions, each with a character of its line behind it. -/
structure Spots (d : Document) (ps : List Position) : Prop extends d.Distinct ps where
  /-- The lines do not end at the positions. -/
  onChar : ∀ p ∈ ps, p.col < d.lineLen p.line

namespace Spots

variable (h : d.Spots ps)
include h

theorem inBounds_next (hp : p ∈ ps) : d.InBounds ⟨p.line, p.col + 1⟩ :=
  ⟨(h.inBounds p hp).1, h.onChar p hp⟩

/-- Each edit replaces one character. -/
theorem offsetOf_next (hp : p ∈ ps) : d.offsetOf ⟨p.line, p.col + 1⟩ = d.offsetOf p + 1 := by
  rw [offsetOf_of_inBounds (h.inBounds_next hp), offsetOf_of_inBounds (h.inBounds p hp)]
  rfl

theorem legal_overwrites (c : Char) : d.Legal (overwrites ps c) where
  fits := List.forall_mem_map.2 fun p hp =>
    ⟨h.inBounds p hp, h.inBounds_next hp, .inr ⟨rfl, Nat.le_succ _⟩⟩
  apart := by
    refine List.pairwise_map.2 ((List.pairwise_map.1 h.nodup_offsets).imp_of_mem ?_)
    intro p q hp hq hne
    simp only [Edit.replace, h.offsetOf_next hp, h.offsetOf_next hq]
    omega

/-- **Characters at different positions can be replaced in one batch**, which knows where each of
them is. -/
theorem edit_overwrites (c : Char) :
    ∃ after plan, d.edit (overwrites ps c) = .ok (after, plan) ∧
      after.text = overwrite (ps.map d.offsetOf) c d.text ∧
      ∀ i p, ps[i]? = some p → plan.startOf? i = some (d.offsetOf p) := by
  have hlegal := h.legal_overwrites c
  have hone : ∀ e ∈ overwrites ps c, e.text.length = 1 ∧
      d.offsetOf e.range.stop - d.offsetOf e.range.start = 1 := by
    refine List.forall_mem_map.2 fun p hp => ⟨rfl, ?_⟩
    simp only [Edit.replace, h.offsetOf_next hp, Nat.add_sub_cancel_left]
  have hheld : ∀ e ∈ overwrites ps c, d.offsetOf e.range.start < d.offsetOf e.range.stop := by
    intro e he
    have := (hone e he).2
    omega
  obtain ⟨after, plan, hedit⟩ := exists_edit_of_pieces hlegal hheld
  have hplan := (edit_eq_ok_iff.1 hedit).1
  refine ⟨after, plan, hedit, ?_, fun i p hi => ?_⟩
  · obtain ⟨-, -, hedits⟩ := plan_eq_ok_iff.1 hplan
    have hchar : ∀ f ∈ plan.edits, f.stop = f.start + 1 ∧ f.text = [c] := by
      intro f hf
      rw [hedits] at hf
      obtain ⟨e, he, hstart, hstop, htext⟩ := exists_of_mem_inOrder hf
      obtain ⟨p, hp, rfl⟩ := List.mem_map.1 he
      rw [hstart, hstop, htext]
      exact ⟨h.offsetOf_next hp, rfl⟩
    rw [text_of_edit hlegal.fits hedit,
      rebuild_eq_overwrite (inSequence_of_plan hlegal.fits hplan) hchar]
    refine overwrite_congr fun o => ?_
    have hperm := d.perm_starts_inOrder (overwrites ps c)
    rw [hedits, ← starts_overwrites d ps c]
    exact hperm.mem_iff
  · -- The edits before it add as much as they take.
    have hget : (overwrites ps c)[i]? = some (.replace ⟨p, ⟨p.line, p.col + 1⟩, none⟩ [c]) := by
      rw [overwrites, List.getElem?_map, hi, Option.map_some]
    have hend := places_of_alike hplan hone (starts_overwrites d ps c ▸ h.nodup_offsets) hget
    rw [endOf?_of_plan hplan hget] at hend
    obtain ⟨o, hstart, hplace⟩ := Option.map_eq_some_iff.1 hend
    simp only [Nat.one_mul, Nat.add_sub_cancel] at hplace
    rw [hstart]
    exact congrArg some (Nat.succ.inj hplace)

/-! ### Lines -/

theorem mem_offsets_iff {i k : Nat} (hi : i ≤ d.lastLine) (hk : k ≤ d.lineLen i) :
    k + d.lineStart i ∈ ps.map d.offsetOf ↔ ⟨i, k⟩ ∈ ps := by
  have hin : d.InBounds ⟨i, k⟩ := ⟨lt_lineCount hi, hk⟩
  have hoffset : d.offsetOf ⟨i, k⟩ = k + d.lineStart i :=
    (offsetOf_of_inBounds hin).trans (Nat.add_comm _ _)
  rw [← hoffset]
  refine ⟨fun hmem => ?_, fun hmem => List.mem_map_of_mem hmem⟩
  obtain ⟨p, hp, heq⟩ := List.mem_map.1 hmem
  -- Different positions have different offsets.
  rwa [← h.lineFeedsOnly.positionAt_offsetOf hin, ← heq,
    h.lineFeedsOnly.positionAt_offsetOf (h.inBounds p hp)]

/-- A line and its line feed, which stays. -/
theorem overwrite_line {i : Nat} (hi : i ≤ d.lastLine) (c : Char) :
    (d.content i ++ ['\n']).mapIdx
        (fun k x => if k + d.lineStart i ∈ ps.map d.offsetOf then c else x) =
      (d.content i).mapIdx (fun k x => if ⟨i, k⟩ ∈ ps then c else x) ++ ['\n'] := by
  have hlast : ⟨i, d.lineLen i⟩ ∉ ps := fun hmem => Nat.lt_irrefl _ (h.onChar _ hmem)
  have hfeed : d.lineLen i + d.lineStart i ∉ ps.map d.offsetOf := fun hmem =>
    hlast ((h.mem_offsets_iff hi (Nat.le_refl _)).1 hmem)
  rw [List.mapIdx_concat]
  refine congrArg₂ (· ++ ·) (List.mapIdx_eq_mapIdx_iff.2 fun k hk => ?_) ?_
  · simp only [h.mem_offsets_iff hi (Nat.le_of_lt hk)]
  · exact congrArg (fun x => [x]) (if_neg hfeed)

/-- Whole lines. -/
theorem overwrite_ended {k : Nat} (hk : k ≤ d.lineCount) (c : Char) :
    overwrite (ps.map d.offsetOf) c (ended (d.contents.take k)) =
      ended ((d.overwritten ps c).take k) := by
  have hcount := d.lastLine_add_one
  induction k with
  | zero => rfl
  | succ k ih =>
    have hi : k ≤ d.lastLine := by omega
    have hline : (d.overwritten ps c)[k]? =
        some ((d.content k).mapIdx fun j x => if ⟨k, j⟩ ∈ ps then c else x) := by
      rw [overwritten, List.getElem?_mapIdx, getElem?_contents (lt_lineCount hi), Option.map_some]
    have hrest := h.overwrite_line hi c
    rw [lineStart_eq_length_ended h.lineFeedsOnly hi] at hrest
    rw [ended_take_succ hi, List.append_assoc, overwrite, List.mapIdx_append, hrest, ← overwrite,
      ih (by omega), List.take_add_one, hline, ended_append, Option.toList_some, ended_cons,
      ended_nil]

theorem isLine_of_mem_overwritten (hc : ¬ isLineBreak c) {l : Text}
    (hl : l ∈ d.overwritten ps c) : IsLine l := by
  obtain ⟨i, hi, rfl⟩ := List.mem_mapIdx.1 hl
  have hline : IsLine d.contents[i] :=
    isLine_of_mem_contents h.lineFeedsOnly (List.getElem_mem hi)
  intro x hx
  obtain ⟨k, hk, rfl⟩ := List.mem_mapIdx.1 hx
  split
  · exact hc
  · exact hline _ (List.getElem_mem hk)

section

variable (hc : ¬ isLineBreak c) (hafter : after.text = overwrite (ps.map d.offsetOf) c d.text)
include hc hafter

/-- **The lines of the text that is overwritten.** -/
theorem contents_overwrite : after.LineFeedsOnly ∧ after.contents = d.overwritten ps c := by
  have hend : d.size ∉ ps.map d.offsetOf := by
    intro hmem
    obtain ⟨p, hp, heq⟩ := List.mem_map.1 hmem
    have := d.offsetOf_le_size ⟨p.line, p.col + 1⟩
    have := h.offsetOf_next hp
    omega
  have htext : after.text ++ ['\n'] = ended (d.overwritten ps c) := by
    have hlines := h.overwrite_ended (Nat.le_refl d.lineCount) c
    rw [← length_contents, List.take_length, length_contents, ← length_overwritten d ps c,
      List.take_length, ← text_append_newline h.lineFeedsOnly, overwrite,
      List.mapIdx_concat] at hlines
    rw [hafter, ← hlines]
    exact congrArg (fun x => overwrite _ c d.text ++ [x]) (if_neg hend).symm
  have hlines : ∀ l ∈ d.overwritten ps c, IsLine l := fun _ => h.isLine_of_mem_overwritten hc
  exact ⟨lineFeedsOnly_of_ended htext hlines, contents_of_ended htext hlines⟩

theorem lineCount_overwrite : after.lineCount = d.lineCount := by
  rw [← length_contents, (h.contents_overwrite hc hafter).2, length_overwritten]

/-- No line becomes longer or shorter. -/
theorem lineLen_overwrite (i : Nat) : after.lineLen i = d.lineLen i := by
  rw [lineLen, lineLen, content_eq_getD, content_eq_getD, (h.contents_overwrite hc hafter).2,
    overwritten, List.getElem?_mapIdx]
  cases d.contents[i]? with
  | none => rfl
  | some l => exact List.length_mapIdx

theorem lineStart_overwrite {i : Nat} (hi : i ≤ d.lastLine) :
    after.lineStart i = d.lineStart i := by
  have hlast : after.lastLine = d.lastLine :=
    congrArg (· - 1) (h.lineCount_overwrite hc hafter)
  induction i with
  | zero => rfl
  | succ i ih =>
    rw [lineStart_succ, lineStart_succ, ih (by omega), h.lineFeedsOnly.width_eq hi,
      (h.contents_overwrite hc hafter).1.width_eq (hlast ▸ hi), h.lineLen_overwrite hc hafter]

/-- **Positions stay where they are.** -/
theorem positionAt_overwrite (hp : d.InBounds p) : after.positionAt (d.offsetOf p) = p := by
  have hin : after.InBounds p :=
    ⟨h.lineCount_overwrite hc hafter ▸ hp.1, h.lineLen_overwrite hc hafter p.line ▸ hp.2⟩
  have hoffset : after.offsetOf p = d.offsetOf p := by
    rw [offsetOf_of_inBounds hin, offsetOf_of_inBounds hp,
      h.lineStart_overwrite hc hafter hp.line_le]
  rw [← hoffset]
  exact (h.contents_overwrite hc hafter).1.positionAt_offsetOf hin

end

end Spots

end Document

end ModalEdit
