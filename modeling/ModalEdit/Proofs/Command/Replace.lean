import ModalEdit.Proofs.Command.Batch
import ModalEdit.Proofs.Command.Pairing
import ModalEdit.Proofs.Text.Overwrite

/-!
# Replacing characters

The character at every cursor that stands on one is replaced, and nothing else in the document
changes. The new cursors are made from the edits, so that a cursor at the end of a line has none. If
no cursor stands on a character, the selections stay as they are (`Step.ends_replaceChar`).
-/

namespace ModalEdit

variable {d : Document} {s : State} {ps : List Position} {c : Char}

namespace Document

/-- The positions with a character of their line behind them. -/
def onChars (d : Document) (ps : List Position) : List Position :=
  ps.filter fun p => p.col < d.lineLen p.line

theorem Distinct.spots (h : d.Distinct ps) : d.Spots (d.onChars ps) where
  lineFeedsOnly := h.lineFeedsOnly
  inBounds p hp := h.inBounds p (List.mem_of_mem_filter hp)
  nodup := h.nodup.filter _
  onChar p hp := by simpa using (List.mem_filter.1 hp).2

/-- At the other positions there is nothing to replace. -/
theorem overwritten_onChars (d : Document) (ps : List Position) (c : Char) :
    d.overwritten (d.onChars ps) c = d.overwritten ps c := by
  refine List.mapIdx_eq_mapIdx_iff.2 fun i hi => List.mapIdx_eq_mapIdx_iff.2 fun k hk => ?_
  have hcontent : d.content i = d.contents[i] := by
    rw [content_eq_getD, List.getElem?_eq_getElem hi, Option.getD_some]
  have hlen : k < d.lineLen i := by rwa [lineLen, hcontent]
  simp only [onChars, List.mem_filter, hlen, decide_true, and_true]

end Document

namespace State

/-- What replacing characters leaves: each of the positions has the character `c`, if it had one,
and the cursors that had one are left, or all of them if none had. -/
def ReplacesChars (s : State) (d : Document) (ps : List Position) (c : Char) (s' : State) : Prop :=
  (∃ after, s'.editor.document = some after ∧ after.LineFeedsOnly ∧
    after.contents = d.overwritten ps c ∧ ∀ i, after.lineLen i = d.lineLen i) ∧
  s'.session = s.session ∧ s'.editor.clipboard = s.editor.clipboard ∧
  s'.selections = if d.onChars ps = [] then s.selections else (d.onChars ps).map .cursor

theorem cursorsIn_of_distinct (h : d.Distinct ps) (hsel : s.selections = ps.map .cursor) :
    s.cursorsIn d = ps := by
  have hclamp : ps.map (fun p => d.clamp (Selection.cursor p).active) = ps.map id :=
    List.map_congr_left fun p hp => d.clamp_of_inBounds (h.inBounds p hp)
  rw [cursorsIn, hsel, List.map_map, Function.comp_def, hclamp, List.map_id,
    eraseDups_eq_self h.nodup]

theorem replaceCharEdits_eq (h : d.Distinct ps) (hsel : s.selections = ps.map .cursor) :
    s.replaceCharEdits d [c] = Document.overwrites (d.onChars ps) c := by
  rw [replaceCharEdits, cursorsIn_of_distinct h hsel]
  refine List.map_congr_left fun p _ => ?_
  have hle : p ≤ ⟨p.line, p.col + 1⟩ := .inr ⟨rfl, Nat.le_succ _⟩
  exact congrArg (Edit.replace · [c]) (if_pos hle)

end State

/-- **Replacing characters** always succeeds. -/
theorem Step.ends_replaceChar (hdoc : s.editor.document = some d)
    (hreadonly : s.editor.readonly = false) (h : d.Distinct ps)
    (hsel : s.selections = ps.map .cursor) (hc : ¬ isLineBreak c) :
    (replaceChar d (some (.char c))).Ends s (fun _ s' => s.ReplacesChars d ps c s')
      fun _ _ => False := by
  have hspots := h.spots
  obtain ⟨after, plan, hedit, htext, hstarts⟩ := hspots.edit_overwrites c
  obtain ⟨hafter, hcontents⟩ := hspots.contents_overwrite hc htext
  rw [Document.overwritten_onChars] at hcontents
  have hlines := hspots.lineLen_overwrite hc htext
  have hcursors : ((List.range (d.onChars ps).length).filterMap fun i =>
      (plan.startOf? i).map after.positionAt) = d.onChars ps := by
    refine (filterMap_range_eq_map fun i p hi => ?_).trans (List.map_id _)
    have hin := hspots.inBounds p (List.mem_of_getElem? hi)
    rw [hstarts i p hi, Option.map_some, hspots.positionAt_overwrite hc htext hin]
    rfl
  have hne : [c] ≠ ['\n'] := by
    rintro ⟨⟩
    exact hc (by decide)
  have hlength : (Document.overwrites (d.onChars ps) c).length = (d.onChars ps).length :=
    List.length_map _
  have hkey : Key.replacement? (some (.char c)) = some [c] := rfl
  simp only [replaceChar, hkey, ends_bind, ends_get, State.replaceCharEdits_eq h hsel]
  rw [ends_of_ok (commit_of_edit hdoc hreadonly hedit)]
  simp only [hne, ↓reduceIte, hlength, hcursors]
  -- The selections are only set if there is an edit.
  by_cases hnone : d.onChars ps = []
  · have hempty : (Document.overwrites (d.onChars ps) c).isEmpty = true := by
      rw [hnone]
      rfl
    simp only [hempty, not_true_eq_false, ↓reduceIte, ends_pure]
    refine ⟨⟨after, rfl, hafter, hcontents, hlines⟩, rfl, rfl, ?_⟩
    rw [if_pos hnone]
    rfl
  · have hsome : (Document.overwrites (d.onChars ps) c).isEmpty = false := by
      simpa [Document.overwrites] using hnone
    simp only [hsome, Bool.false_eq_true, not_false_eq_true, ↓reduceIte, ends_modify]
    refine ⟨⟨after, rfl, hafter, hcontents, hlines⟩, rfl, rfl, ?_⟩
    rw [if_neg hnone, State.selections_setCursors, eraseDups_eq_self hspots.nodup]

end ModalEdit
