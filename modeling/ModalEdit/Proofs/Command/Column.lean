import ModalEdit.Proofs.Command.Invariant
import ModalEdit.Proofs.TwoRuns

/-!
# Commands and the column past the end of a line

Two states are twins if they agree in everything but their only cursor, which stands at a position
in one and where that position is moved into the document in the other (`State.Twins`). A command of
Normal mode makes the same batch of both and sets the same cursors, so that the states become equal
(`Command.endAlike`). Only a command that finds nothing to replace, to join or to paste sets no
cursors, and leaves twins.
-/

namespace ModalEdit

variable {d : Document} {p : Position} {s s' : State} {pl : Placement} {settings : Settings}

theorem Placement.clamp_documentClamp (pl : Placement) (p : Position) :
    pl.clamp d (d.clamp p) = pl.clamp d p := by
  simp only [clamp, Document.clamp_clamp]

/-- Moving a cursor into the document places it, unless cursors stand on characters and it is past
the last one of its line. -/
theorem Placement.clamp_eq_documentClamp_iff (hline : p.line ≤ d.lastLine) :
    pl.clamp d p = d.clamp p ↔
      ¬ (pl = .onChar ∧ 0 < d.lineLen p.line ∧ d.lineLen p.line ≤ p.col) := by
  have hmin : min p.line d.lastLine = p.line := Nat.min_eq_left hline
  simp only [clamp, Document.clamp, hmin, Position.mk.injEq, true_and]
  cases pl with
  | gap => simp [maxCol]
  | onChar =>
    simp only [maxCol, true_and]
    omega

/-- In Normal mode both states have one cursor and agree in everything else: in `s` the cursor is at
`p`, in `s'` it has been moved into the document. -/
structure State.Twins (d : Document) (p : Position) (s s' : State) : Prop where
  /-- The document is open in `s`. -/
  document : s.editor.document = some d
  /-- The mode of `s`. -/
  mode : s.mode = .normal
  /-- The cursor of `s`. -/
  selections : s.selections = [.cursor p]
  /-- The cursor of `s'`, and all that is the same. -/
  other : s' = s.withSelections [.cursor (d.clamp p)]

namespace State.Twins

variable (h : s.Twins d p s')

include h

theorem document_other : s'.editor.document = some d := by
  rw [h.other]
  exact h.document

theorem selections_other : s'.selections = [.cursor (d.clamp p)] := by
  rw [h.other]
  rfl

theorem mode_other : s'.mode = .normal := by
  rw [h.other]
  exact h.mode

theorem access_other : s'.access = s.access := by
  rw [h.other]
  rfl

theorem session_other : s'.session = s.session := by
  rw [h.other]
  rfl

theorem cursorsIn : s.cursorsIn d = [d.clamp p] := by
  rw [State.cursorsIn, h.selections]
  rfl

theorem cursorsIn_other : s'.cursorsIn d = s.cursorsIn d := by
  rw [h.cursorsIn, State.cursorsIn, h.selections_other, List.map_singleton, Selection.cursor,
    Document.clamp_clamp]
  rfl

theorem cursorLines_other : s'.cursorLines d = s.cursorLines d := by
  rw [State.cursorLines, State.cursorLines, h.cursorsIn_other]

/-- New cursors make the states equal, whatever has become of the document. -/
theorem setCursors_edited (after : Document) (ps : List Position) :
    (s'.edited after).setCursors ps = (s.edited after).setCursors ps := by
  rw [h.other]
  rfl

theorem setCursors (ps : List Position) : s'.setCursors ps = s.setCursors ps := by
  rw [h.other]
  rfl

theorem select (sels : List Selection) : s'.select sels = s.select sels := by
  rw [h.other]
  rfl

/-- Twins remain twins when they adopt the clipboard. -/
theorem syncRegisters : s.syncRegisters.Twins d p s'.syncRegisters where
  document := by simpa using h.document
  mode := by simpa using h.mode
  selections := by simpa using h.selections
  other := by rw [h.other, State.syncRegisters_withSelections]

/-- The pending keys are no difference between twins. -/
theorem withPending (keys : List Key) :
    ({ s with session := { s.session with pending := keys } } : State).Twins d p
      { s' with session := { s'.session with pending := keys } } where
  document := h.document
  mode := h.mode
  selections := h.selections
  other := by rw [h.other]; rfl

/-- An empty batch leaves twins. -/
theorem edited_nil {after : Document} {plan : Plan} (hedit : d.edit [] = .ok (after, plan)) :
    (s.edited after).Twins d p (s'.edited after) := by
  rw [d.edit_nil] at hedit
  cases hedit
  rw [s.edited_of_document h.document, s'.edited_of_document h.document_other]
  exact h

/-- A cursor pastes the same entry wherever it is. -/
theorem pasteEntries_other : s'.pasteEntries = s.pasteEntries := by
  simp only [State.pasteEntries, h.selections, h.selections_other, h.session_other, byPosition,
    List.zipIdx_singleton, List.mergeSort_singleton, List.map_singleton, List.length_singleton]

theorem pasteEdits_other (after : Bool) : s'.pasteEdits d after = s.pasteEdits d after := by
  have hedit (e : RegisterEntry) :
      pasteEdit d after (.cursor (d.clamp p)) e = pasteEdit d after (.cursor p) e := by
    simp only [pasteEdit, Selection.cursor, Document.clamp_clamp]
  simp only [State.pasteEdits, h.pasteEntries_other, h.selections, h.selections_other]
  cases s.pasteEntries with
  | nil => rfl
  | cons e es => simp only [List.zipWith_cons_cons, hedit, List.zipWith_nil_left]

end State.Twins

/-! ### Steps -/

/-- The command may find nothing to work on and then leaves the cursor where it is. -/
def Command.mayIdle : Command → Bool
  | replaceChar | joinLines | paste _ => true
  | _ => false

/-- How two runs of a command may end: in equal states, or as twins if the command may idle. -/
def State.Settled (d : Document) (p : Position) (mayIdle : Bool) (t t' : State) : Prop :=
  t' = t ∨ mayIdle = true ∧ t.Twins d p t'

namespace Step

variable (h : s.Twins d p s')

include h

theorem openLine_endAlike (below : Bool) :
    EndAlike (openLine d below) (openLine d below) s s' (fun _ t t' => t' = t)
      (State.Twins d p) := by
  simp only [openLine, endAlike_get_bind, State.openLineEdits, h.cursorLines_other]
  refine EndAlike.bind ?_
  refine endAlike_commit h.document h.document_other h.access_other (fun after plan _ => ?_) h
  rw [endAlike_modify, h.setCursors_edited]

theorem replaceChar_endAlike (key : Option Key) :
    EndAlike (replaceChar d key) (replaceChar d key) s s' (fun _ => State.Settled d p true)
      (State.Twins d p) := by
  unfold replaceChar
  split
  · exact endAlike_pure.2 (.inr ⟨rfl, h⟩)
  · rename_i text _
    have hedits : s'.replaceCharEdits d text = s.replaceCharEdits d text := by
      simp only [State.replaceCharEdits, h.cursorsIn_other]
    simp only [endAlike_get_bind, hedits]
    refine EndAlike.bind ?_
    refine endAlike_commit h.document h.document_other h.access_other (fun after plan hedit => ?_) h
    split
    · exact endAlike_modify.2 (.inl (h.setCursors_edited _ _))
    · rename_i hnil
      have hnil : s.replaceCharEdits d text = [] := by simpa using hnil
      rw [hnil] at hedit
      exact endAlike_pure.2 (.inr ⟨rfl, h.edited_nil hedit⟩)

theorem joinLines_endAlike (settings : Settings) :
    EndAlike (joinLines settings d) (joinLines settings d) s s'
      (fun _ => State.Settled d p true) (State.Twins d p) := by
  have hedits : s'.joinLinesEdits settings d = s.joinLinesEdits settings d := by
    rw [State.joinLinesEdits, State.joinLinesEdits, h.cursorLines_other, h.other]
    rfl
  simp only [joinLines, endAlike_get_bind, hedits]
  refine EndAlike.bind ?_
  refine endAlike_commit h.document h.document_other h.access_other (fun after plan hedit => ?_) h
  split
  · exact endAlike_modify.2 (.inl (h.setCursors_edited _ _))
  · rename_i hnil
    have hnil := Document.eq_nil_of_no_cursors hedit (List.isEmpty_iff.1 (Decidable.not_not.1 hnil))
    rw [hnil] at hedit
    exact endAlike_pure.2 (.inr ⟨rfl, h.edited_nil hedit⟩)

theorem paste_endAlike (pl : Placement) (after : Bool) :
    EndAlike (paste pl d after) (paste pl d after) s s' (fun _ => State.Settled d p true)
      (State.Twins d p) := by
  have hsync := h.syncRegisters
  simp only [paste, endAlike_modify_bind, endAlike_get_bind, hsync.pasteEntries_other,
    hsync.pasteEdits_other]
  split
  · exact endAlike_pure.2 (.inr ⟨rfl, hsync⟩)
  · refine EndAlike.bind ?_
    refine endAlike_commit hsync.document hsync.document_other hsync.access_other
      (fun d' plan _ => ?_) hsync
    exact endAlike_modify.2 (.inl (hsync.setCursors_edited _ _))

/-- An operator takes the same range for both cursors and leaves nothing of them. -/
theorem apply_endAlike (kind : OperatorKind) (pl : Placement) (r : Range) :
    EndAlike (kind.apply pl d [(.cursor p, some r)] false)
      (kind.apply pl d [(.cursor (d.clamp p), some r)] false) s s' (fun _ t t' => t' = t)
      (State.Twins d p) := by
  have hwritten (after : Document) (entries : List RegisterEntry) (ps : List Position) :
      ((s'.edited after).writeRegisters entries).setCursors ps =
        ((s.edited after).writeRegisters entries).setCursors ps := by
    rw [h.other, State.edited_withSelections, State.writeRegisters_withSelections,
      State.setCursors_withSelections]
  unfold OperatorKind.apply
  dsimp only [List.filterMap_cons, List.filterMap_nil, List.map_cons, List.map_nil]
  split
  · have hyanked : pl.clamp d (OperatorKind.yankedTo false (.cursor (d.clamp p), some r)) =
        pl.clamp d (OperatorKind.yankedTo false (.cursor p, some r)) := by
      cases hlines : r.lines with
      | some l => simp [OperatorKind.yankedTo, hlines, Selection.cursor, pl.clamp_documentClamp]
      | none => simp [OperatorKind.yankedTo, hlines]
    have hs := hwritten d
    rw [s.edited_of_document h.document, s'.edited_of_document h.document_other] at hs
    rw [endAlike_modify, List.map_singleton, List.map_singleton, hyanked, hs]
  · refine EndAlike.bind ?_
    refine endAlike_commit h.document h.document_other h.access_other (fun after plan _ => ?_) h
    rw [endAlike_modify]
    exact congrArg (State.setMode · _) (hwritten after _ _)

end Step

namespace State.Twins

variable (h : s.Twins d p s')

include h

theorem escape_other : s'.escape settings d = s.escape settings d := by
  simp only [escape, h.mode, h.mode_other, h.selections, h.selections_other, Selection.cursor,
    Placement.clamp_documentClamp, h.setCursors]

theorem enterInsert_other (place : InsertPlace) :
    s'.enterInsert d place = s.enterInsert d place := by
  rw [enterInsert, enterInsert, h.cursorsIn_other, h.setCursors]

theorem toggleVisual_other : s'.toggleVisual settings d = s.toggleVisual settings d := by
  have hentry : d.entryChar (d.clamp p) = d.entryChar p := by
    simp only [Document.entryChar, Document.clamp_clamp]
  simp only [toggleVisual, h.mode, h.mode_other, h.selections, h.selections_other, Selection.cursor,
    List.map_cons, List.map_nil, hentry, h.select]

theorem toggleVisualLine_other :
    s'.toggleVisualLine settings d = s.toggleVisualLine settings d := by
  simp only [toggleVisualLine, h.mode, h.mode_other, h.selections, h.selections_other,
    Selection.cursor, List.map_cons, List.map_nil, Document.clamp_clamp, h.select]

end State.Twins

/-- **A command of Normal mode does the same to twins.** It makes them equal, unless it may idle. -/
theorem Command.endAlike (h : s.Twins d p s') (c : Command) (hc : c.home.has .normal)
    (settings : Settings) (key : Option Key) :
    Step.EndAlike (c.run settings d key) (c.run settings d key) s s'
      (fun _ => State.Settled d p c.mayIdle) (State.Twins d p) := by
  cases c with
  | escape => exact Step.endAlike_modify.2 (.inl h.escape_other)
  | insert place => exact Step.endAlike_modify.2 (.inl (h.enterInsert_other place))
  | openLine below =>
    exact (Step.openLine_endAlike h below).mono (fun _ _ _ ht => .inl ht) fun _ _ ht => ht
  | replaceChar => exact Step.replaceChar_endAlike h key
  | joinLines => exact Step.joinLines_endAlike h settings
  | paste after => exact Step.paste_endAlike h settings.placement after
  | toggleVisual => exact Step.endAlike_modify.2 (.inl h.toggleVisual_other)
  | toggleVisualLine => exact Step.endAlike_modify.2 (.inl h.toggleVisualLine_other)
  | swapEnds | pasteOver => cases hc

end ModalEdit
