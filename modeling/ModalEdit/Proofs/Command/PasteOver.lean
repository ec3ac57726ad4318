import ModalEdit.Proofs.Command.Batch
import ModalEdit.Proofs.Command.LinePaste

/-!
# Pasting over selected lines

In visual line mode a paste puts the entry of each selection in the place of the lines selected
(`State.linePastes`). `Step.pasteOver_lines_iff` says for which selections the lines come out as
they should: when no selection that reaches the last line is right behind another one, which makes
the paste fail, and when no selection is all lines, which leaves an empty line too many.
-/

namespace ModalEdit

variable {d : Document} {s : State}

/-- The selected lines. -/
def Selection.lineSpan (sel : Selection) : LineSpan :=
  ⟨min sel.lineEndpoints.1 sel.lineEndpoints.2, max sel.lineEndpoints.1 sel.lineEndpoints.2⟩

theorem Selection.first_le_last (sel : Selection) : sel.lineSpan.first ≤ sel.lineSpan.last :=
  Nat.le_trans (Nat.min_le_left _ _) (Nat.le_max_left _ _)

/-- Which lines are selected depends only on the range. -/
theorem Selection.lineSpan_eq (sel : Selection) :
    sel.lineSpan = ⟨sel.range.start.line, lastLineOf sel.range.start.line sel.range.stop⟩ := by
  obtain ⟨anchor, active⟩ := sel
  have hle {p q : Position} (h : p < q) : p.line ≤ lastLineOf p.line q := by
    simp only [Position.lt_def] at h
    unfold lastLineOf
    split <;> omega
  rw [lineSpan, lineEndpoints, range]
  dsimp only
  split
  · rename_i hlt
    rw [Range.between_of_le (Position.le_of_lt hlt), Nat.min_eq_left (hle hlt),
      Nat.max_eq_right (hle hlt)]
  · split
    · rename_i hlt
      rw [Range.between_comm, Range.between_of_le (Position.le_of_lt hlt),
        Nat.min_eq_right (hle hlt), Nat.max_eq_left (hle hlt)]
    · rename_i hnlt hngt
      obtain rfl := Position.le_antisymm (Position.not_lt.1 hngt) (Position.not_lt.1 hnlt)
      have hself : lastLineOf anchor.line anchor = anchor.line :=
        if_neg fun h => Nat.lt_irrefl _ h.2
      rw [Range.between_of_le (Position.le_refl _), Nat.min_self, Nat.max_self, hself]

/-- So does the range that is taken for the selection. -/
theorem State.selectedRange_congr {withBreak : Bool} {sel sel' : Selection}
    (h : sel'.range = sel.range) :
    s.selectedRange d withBreak sel' = s.selectedRange d withBreak sel := by
  unfold selectedRange
  split
  · change d.linesSpan sel'.lineSpan.first sel'.lineSpan.last withBreak =
      d.linesSpan sel.lineSpan.first sel.lineSpan.last withBreak
    rw [sel'.lineSpan_eq, sel.lineSpan_eq, h]
  · exact h

/-- The first selected line is the one in which the selection begins. -/
theorem Selection.first_lineSpan (sel : Selection) : sel.lineSpan.first = sel.start.line := by
  have hstart : sel.range.start = sel.start := by
    rcases Position.le_total sel.anchor sel.active with h | h
    · rw [range, Range.between_of_le h, start, Position.min_eq_left h]
    · rw [range, Range.between_comm, Range.between_of_le h, start, Position.min_eq_right h]
  rw [lineSpan_eq, hstart]

/-- Selections without a common line begin at different places. -/
theorem start_ne_of_apart {sels : List Selection}
    (h : sels.Pairwise fun a b => a.lineSpan.Apart b.lineSpan) :
    sels.Pairwise fun a b => a.start ≠ b.start := by
  refine h.imp fun {a b} hab hstart => ?_
  have hfirst : a.lineSpan.first = b.lineSpan.first := by
    rw [a.first_lineSpan, b.first_lineSpan, hstart]
  have := a.first_le_last
  have := b.first_le_last
  rcases hab with h | h <;> omega

namespace State

/-- The lines of each selection and the entry that is pasted over them. -/
def linePastes (s : State) : List LinePaste :=
  s.selections.filterMap fun sel =>
    (s.session.registers.entryFor s.selections sel).map (LinePaste.mk sel.lineSpan)

/-- The batch pastes the entries over the lines. -/
theorem pasteOverEdits_eq (hmode : s.mode = .visualLine)
    (hstarts : s.selections.Pairwise fun a b => a.start ≠ b.start) :
    s.pasteOverEdits d = s.linePastes.map d.lineEdit := by
  by_cases hne : s.session.registers.entries = []
  · have hnone : ∀ sel ∈ s.selections,
        (s.session.registers.entryFor s.selections sel).map (LinePaste.mk sel.lineSpan) = none := by
      intro sel _
      rw [Registers.entryFor_of_empty hne, Option.map_none]
    rw [pasteOverEdits, pasteEntries_of_empty hne, List.zipWith_nil_right, linePastes,
      List.filterMap_eq_nil_iff.2 hnone, List.map_nil]
  · obtain ⟨entry, hentry⟩ := Registers.exists_entryFor hne s.selections
    have hpastes : s.linePastes =
        s.selections.map fun sel => (⟨sel.lineSpan, entry sel⟩ : LinePaste) := by
      have hsome : ∀ sel ∈ s.selections,
          (s.session.registers.entryFor s.selections sel).map (LinePaste.mk sel.lineSpan) =
            some ⟨sel.lineSpan, entry sel⟩ := by
        intro sel hsel
        rw [hentry sel hsel, Option.map_some]
      rw [linePastes, List.filterMap_congr hsome, List.filterMap_eq_map']
    rw [pasteOverEdits, pasteEntries_of_entryFor hne hstarts hentry, hpastes, List.map_map,
      List.zipWith_map, List.zipWith_self]
    refine List.map_congr_left fun sel _ => ?_
    simp only [selectedRange, hmode, ↓reduceIte]
    rfl

theorem pastes_linePastes (hlines : ∀ sel ∈ s.selections, sel.lineSpan.last < d.lineCount)
    (hapart : s.selections.Pairwise fun a b => a.lineSpan.Apart b.lineSpan)
    (hentries : ∀ e ∈ s.session.registers.entries, e.IsLines) : d.Pastes s.linePastes := by
  have hpaste : ∀ sel p, (s.session.registers.entryFor s.selections sel).map
      (LinePaste.mk sel.lineSpan) = some p → p.span = sel.lineSpan ∧ p.entry.IsLines := by
    intro sel p hp
    obtain ⟨e, he, rfl⟩ := Option.map_eq_some_iff.1 hp
    exact ⟨rfl, Registers.isLines_of_entryFor hentries he⟩
  refine ⟨fun p hp => ?_, ?_, fun p hp => ?_⟩
  · obtain ⟨sel, hsel, hp⟩ := List.mem_filterMap.1 hp
    rw [(hpaste sel p hp).1]
    have := hlines sel hsel
    have := d.lastLine_add_one
    exact ⟨sel.first_le_last, by omega⟩
  · refine List.pairwise_filterMap.2 (hapart.imp fun {a b} hab p hp q hq => ?_)
    rw [(hpaste a p hp).1, (hpaste b q hq).1]
    exact hab
  · obtain ⟨sel, -, hp⟩ := List.mem_filterMap.1 hp
    exact (hpaste sel p hp).2

end State

namespace Step

/-- **A paste over the selections makes its batch** or changes nothing in the document. -/
theorem ends_pasteOver (pl : Placement) (storeReplaced : Bool)
    (hdoc : s.editor.document = some d) (hreadonly : s.editor.readonly = false) :
    (pasteOver pl d storeReplaced).Ends s
      (fun _ s' => ∃ after plan, d.edit (s.syncRegisters.pasteOverEdits d) = .ok (after, plan) ∧
        s'.editor.document = some after)
      fun e s' => ∃ c, d.edit (s.syncRegisters.pasteOverEdits d) = .error c ∧ e = .edit c ∧
        s'.editor.document = some d := by
  have hsynced : s.syncRegisters.editor.document = some d := by simpa using hdoc
  have hwritable : s.syncRegisters.editor.readonly = false := by
    rw [State.readonly_eq] at hreadonly ⊢
    simpa using hreadonly
  simp only [pasteOver, ends_bind, ends_modify, ends_get]
  split
  · rename_i hnone
    have hedits : s.syncRegisters.pasteOverEdits d = [] := by
      rw [State.pasteOverEdits, List.isEmpty_iff.1 hnone, List.zipWith_nil_right]
    rw [hedits, Document.edit_nil]
    simp [State.collapse, hdoc]
  · rw [ends_bind]
    refine ends_commit hsynced (fun after plan hedit => ?_) fun e he => ?_
    · cases storeReplaced <;> simp [hedit]
    · rcases he with ⟨c, hc, rfl⟩ | hro
      · exact ⟨c, hc, rfl, hsynced⟩
      · rw [hwritable] at hro
        cases hro

variable {pl : Placement} {storeReplaced : Bool}

/-- The editor has a document that takes edits and is in visual line mode. -/
structure InLineMode (s : State) (d : Document) : Prop where
  /-- The document is open. -/
  document : s.editor.document = some d
  /-- Edits are not refused. -/
  writable : s.editor.readonly = false
  /-- The mode is visual line mode. -/
  mode : s.mode = .visualLine
  /-- The selected lines exist. -/
  lines : ∀ sel ∈ s.selections, sel.lineSpan.last < d.lineCount
  /-- No line is selected twice. -/
  apart : s.selections.Pairwise fun a b => a.lineSpan.Apart b.lineSpan

namespace InLineMode

variable (h : InLineMode s d)
include h

theorem pasteOverEdits_eq :
    s.syncRegisters.pasteOverEdits d = s.syncRegisters.linePastes.map d.lineEdit := by
  refine State.pasteOverEdits_eq ?_ ?_
  · rw [State.mode_syncRegisters, h.mode]
  · rw [State.selections_syncRegisters]
    exact start_ne_of_apart h.apart

theorem pastes (hentries : ∀ e ∈ s.syncRegisters.session.registers.entries, e.IsLines) :
    d.Pastes s.syncRegisters.linePastes := by
  refine State.pastes_linePastes ?_ ?_ hentries
  · rw [State.selections_syncRegisters]
    exact h.lines
  · rw [State.selections_syncRegisters]
    exact h.apart

end InLineMode

/-- Selections that do not meet at the end are replaced. -/
theorem ends_pasteOver_of_not_meetAtEnd (h : InLineMode s d) (hd : d.LineFeedsOnly)
    (hentries : ∀ e ∈ s.syncRegisters.session.registers.entries, e.IsLines)
    (hmeet : ¬ d.MeetAtEnd s.syncRegisters.linePastes) (pl : Placement) (storeReplaced : Bool) :
    (pasteOver pl d storeReplaced).Ends s
      (fun _ s' => ∃ after, s'.editor.document = some after ∧
        after.contents = d.pastedLines s.syncRegisters.linePastes ++
          if d.TakesAll s.syncRegisters.linePastes then [[]] else [])
      fun _ _ => False := by
  obtain ⟨after, plan, hedit, hcontents⟩ := Document.edit_lineEdits hd (h.pastes hentries) hmeet
  rw [← h.pasteOverEdits_eq] at hedit
  refine (ends_pasteOver pl storeReplaced h.document h.writable).mono ?_ ?_
  · rintro _ s' ⟨after', plan', hedit', hdoc⟩
    rw [hedit] at hedit'
    cases hedit'
    exact ⟨after, hdoc, hcontents⟩
  · rintro _ s' ⟨c, herror, -⟩
    rw [hedit] at herror
    cases herror

/-- Selections that meet at the end make the paste fail. -/
theorem ends_pasteOver_of_meetAtEnd (h : InLineMode s d) (hd : d.LineFeedsOnly)
    (hentries : ∀ e ∈ s.syncRegisters.session.registers.entries, e.IsLines)
    (hmeet : d.MeetAtEnd s.syncRegisters.linePastes) (pl : Placement) (storeReplaced : Bool) :
    (pasteOver pl d storeReplaced).Ends s (fun _ _ => False)
      fun e s' => (∃ o, e = .edit (.overlap o)) ∧ s'.editor.document = some d := by
  obtain ⟨o, hedit⟩ := Document.edit_of_meetAtEnd hd (h.pastes hentries) hmeet
  rw [← h.pasteOverEdits_eq] at hedit
  refine (ends_pasteOver pl storeReplaced h.document h.writable).mono ?_ ?_
  · rintro _ s' ⟨after, plan, hok, -⟩
    rw [hedit] at hok
    cases hok
  · rintro _ s' ⟨c, herror, rfl, hdoc⟩
    rw [hedit] at herror
    cases herror
    exact ⟨⟨o, rfl⟩, hdoc⟩

/-- **Pasting over selected lines** puts the lines of the entries in their place and keeps all
others, if and only if no selection that reaches the last line is right behind another one and no
selection is all lines. In the first case the paste fails, in the second an empty line is added. -/
theorem pasteOver_lines_iff (h : InLineMode s d) (hd : d.LineFeedsOnly)
    (hentries : ∀ e ∈ s.syncRegisters.session.registers.entries, e.IsLines) (pl : Placement)
    (storeReplaced : Bool) :
    let ps := s.syncRegisters.linePastes
    ((pasteOver pl d storeReplaced).Ends s
        (fun _ s' => ∃ after, s'.editor.document = some after ∧ after.contents = d.pastedLines ps)
        (fun _ _ => False) ↔
      ¬ d.MeetAtEnd ps ∧ ¬ d.TakesAll ps) ∧
    (d.MeetAtEnd ps → (pasteOver pl d storeReplaced).Ends s (fun _ _ => False)
      fun e s' => (∃ o, e = .edit (.overlap o)) ∧ s'.editor.document = some d) ∧
    (d.TakesAll ps → (pasteOver pl d storeReplaced).Ends s
      (fun _ s' => ∃ after, s'.editor.document = some after ∧
        after.contents = d.pastedLines ps ++ [[]])
      fun _ _ => False) := by
  intro ps
  have hpastes : d.Pastes ps := h.pastes hentries
  have hfails := fun hmeet => ends_pasteOver_of_meetAtEnd h hd hentries hmeet pl storeReplaced
  have hreplaced := fun hmeet =>
    ends_pasteOver_of_not_meetAtEnd h hd hentries hmeet pl storeReplaced
  have hadded (hall : d.TakesAll ps) := by
    have h := hreplaced (hpastes.not_meetAtEnd_of_takesAll hall)
    rwa [if_pos hall] at h
  refine ⟨⟨fun hlines => ⟨fun hmeet => ?_, fun hall => ?_⟩, fun ⟨hmeet, hall⟩ => ?_⟩, hfails,
    hadded⟩
  · exact hlines.absurd ((hfails hmeet).mono (fun _ _ => False.elim) fun _ _ he => he)
  · refine hlines.absurd ((hadded hall).mono ?_ fun _ _ he => he)
    rintro _ s' ⟨after, hdoc, hcontents⟩ ⟨after', hdoc', hcontents'⟩
    obtain rfl := Option.some.inj (hdoc.symm.trans hdoc')
    have hextra := List.self_eq_append_right.1 (hcontents'.symm.trans hcontents)
    exact absurd hextra (List.cons_ne_nil _ _)
  · have h := hreplaced hmeet
    rwa [if_neg hall, List.append_nil] at h

/-- The first of two lines is selected. -/
theorem pasteOver_lines_first :
    let d := Document.ofText ['a', '\n', 'b']
    let s : State := {
      editor := { document := some d, selections := [⟨⟨0, 0⟩, ⟨1, 0⟩⟩] }
      session := { mode := .visualLine, registers := { entries := [.ofLines ['x']] } } }
    InLineMode s d ∧ d.LineFeedsOnly ∧
      (∀ e ∈ s.syncRegisters.session.registers.entries, e.IsLines) ∧
      (pasteOver .gap d true).Ends s
        (fun _ s' => ∃ after, s'.editor.document = some after ∧ after.contents = [['x'], ['b']])
        fun _ _ => False := by
  intro d s
  have h : InLineMode s d := ⟨rfl, rfl, rfl, by decide, by decide⟩
  have hd : d.LineFeedsOnly := by decide
  have hentries : ∀ e ∈ s.syncRegisters.session.registers.entries, e.IsLines :=
    List.forall_mem_singleton.2 ⟨['x'], rfl, by decide⟩
  exact ⟨h, hd, hentries,
    (pasteOver_lines_iff h hd hentries .gap true).1.2 ⟨by decide, by decide⟩⟩

/-- **Both lines are selected**, one by one: the paste fails. **All lines are selected** together:
there is an empty line behind the entry. -/
theorem not_pasteOver_lines :
    let selected (d : Document) (sels : List Selection) : State := {
      editor := { document := some d, selections := sels }
      session := { mode := .visualLine, registers := { entries := [.ofLines ['x']] } } }
    let d := Document.ofText ['a', '\n', 'b']
    let s := selected d [⟨⟨0, 0⟩, ⟨1, 0⟩⟩, ⟨⟨1, 0⟩, ⟨1, 1⟩⟩]
    let d' := Document.ofText ['a']
    let s' := selected d' [⟨⟨0, 0⟩, ⟨0, 1⟩⟩]
    InLineMode s d ∧ d.pastedLines s.syncRegisters.linePastes = [['x'], ['x']] ∧
      (pasteOver .gap d true).Ends s (fun _ _ => False)
        (fun e s' => (∃ o, e = .edit (.overlap o)) ∧ s'.editor.document = some d) ∧
    InLineMode s' d' ∧ d'.pastedLines s'.syncRegisters.linePastes = [['x']] ∧
      (pasteOver .gap d' true).Ends s'
        (fun _ s' => ∃ after, s'.editor.document = some after ∧ after.contents = [['x'], []])
        fun _ _ => False := by
  intro selected d s d' s'
  have hentries : ∀ e ∈ [RegisterEntry.ofLines ['x']], e.IsLines :=
    List.forall_mem_singleton.2 ⟨['x'], rfl, by decide⟩
  have h : InLineMode s d := ⟨rfl, rfl, rfl, by decide, by decide⟩
  have h' : InLineMode s' d' := ⟨rfl, rfl, rfl, by decide, by decide⟩
  exact ⟨h, by decide,
    ends_pasteOver_of_meetAtEnd h (by decide) hentries (by decide) .gap true, h', by decide,
    ends_pasteOver_of_not_meetAtEnd h' (by decide) hentries (by decide) .gap true⟩

end Step

end ModalEdit
