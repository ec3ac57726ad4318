import ModalEdit.Proofs.Command.Paste
import ModalEdit.Proofs.Engine.RoundTrip
import ModalEdit.Proofs.Operator.Lines

/-!
# Whole lines, key by key

The keys of an operator and of an object that stands for whole lines take out, empty or copy exactly
these lines, in the middle of the text as at its end (`Engine.handleKeys_operator_lines`). The keys
that paste put whole lines between the others (`Engine.handleKey_paste_lines`). Both are said with
the lines of the text before and after the keys, so that the place of the line feeds does not
matter.
-/

namespace ModalEdit

variable {d : Document} {kind : OperatorKind} {o : TextObject}

/-- Behind an operator whole lines take a line break with them, except for a change. -/
theorem TextObject.takesBreak_of_mem_behind (ho : o ∈ behind kind) (lastFind : Option Find) :
    o.takesBreak ⟨some kind, lastFind⟩ = (kind != .change) := by
  rcases List.mem_cons.1 ho with rfl | ho
  · rfl
  · have hoperator : (⟨some kind, lastFind⟩ : Purpose).takesBreak = (kind != .change) := by
      cases kind <;> rfl
    rcases List.mem_append.1 ho with ho | ho
    · obtain ⟨name, pattern, k, around, rfl⟩ := exists_of_mem_structures ho
      exact hoperator
    · obtain ⟨m, -, rfl⟩ := List.mem_map.1 ho
      exact hoperator

namespace Engine

/-- **An operator acts on exactly the lines that its object stands for.** When the keys of an object
behind the key of an operator name whole lines, these lines are stored, and they are gone, one empty
line or still there, as the operator has it (`OperatorKind.LeavesLines`). -/
theorem handleKeys_operator_lines (e : Engine) (ed : Editor) (d : Document) (kind : OperatorKind)
    (o : TextObject) (keys : List Key) (sel : Selection) (res : ObjectRange) (l : LineSpan)
    (hkeymap : e.keymap = .builtin) (hmode : e.session.mode = .normal)
    (hpending : e.session.pending = []) (hdoc : ed.document = some d)
    (hwritable : kind = .yank ∨ ed.readonly = false) (hd : d.LineFeedsOnly)
    (hsel : ed.selections = [sel]) (ho : o ∈ TextObject.wholeLine kind :: TextObject.defaults)
    (hfound : o.compute d ⟨some kind, e.session.lastFind⟩ sel.active keys = .some res [])
    (hl : res.range.lines = some l) :
    ∃ e' ed', e.handleKeys ed (kind.key :: keys) =
        (List.replicate keys.length .pending ++ [.executed ("operator-" ++ kind.name)], e', ed') ∧
      kind.LeavesLines e.settings.placement d l (e'.state ed') := by
  have hspan := TextObject.isSpan_of_compute hfound
  rw [TextObject.takesBreak_of_mem_behind ho] at hspan
  have hall : ∀ sel' ∈ ed.selections,
      o.compute d ⟨some kind, e.session.lastFind⟩ sel'.active keys = .some res [] := by
    rw [hsel]
    exact List.forall_mem_singleton.2 hfound
  have happly (pending : List Key) : (kind.apply e.settings.placement d
      (ed.selections.map fun sel => (sel, some res.range)) false).Ends
      ⟨ed, { e.session with pending }⟩
      (fun _ s' => kind.LeavesLines e.settings.placement d l s') fun _ _ => False := by
    rw [hsel]
    exact OperatorKind.ends_apply_lines kind _ sel hdoc hwritable hd hspan hl
  obtain ⟨s', hs', hrun⟩ := handleKeys_operator ⟨hkeymap, hmode, hdoc⟩ hpending
    (by simp [hsel]) ho hall (Q := kind.LeavesLines e.settings.placement d l) happly
  exact ⟨_, _, hrun, hs'⟩

/-- The last two of three lines, from their blank front: they go with the break in front of them,
and the cursor rests on the line that is left. -/
theorem handleKeys_operator_lines_last :
    let d := Document.ofText "\tx\n a\nb".toList
    let ed := Editor.ofDocument d [⟨1, 0⟩]
    let e : Engine := { settings := { placement := .onChar } }
    let o : TextObject := .walked (.onChar "down" 'j' .down)
    let res : ObjectRange := { range := ⟨⟨0, 2⟩, ⟨2, 1⟩, some ⟨1, 2⟩⟩ }
    d.LineFeedsOnly ∧ o ∈ TextObject.wholeLine .delete :: TextObject.defaults ∧
      o.compute d ⟨some .delete, none⟩ ⟨1, 0⟩ [.char 'j'] = .some res [] ∧
      d.linesWithout ⟨1, 2⟩ = ["\tx".toList] ∧
      ∃ e' ed', e.handleKeys ed [.char 'd', .char 'j'] =
          ([.pending, .executed "operator-delete"], e', ed') ∧
        OperatorKind.delete.LeavesLines .onChar d ⟨1, 2⟩ (e'.state ed') := by
  intro d ed e o res
  have hd : d.LineFeedsOnly := by decide
  have ho : o ∈ TextObject.wholeLine .delete :: TextObject.defaults := by
    refine List.mem_cons_of_mem _ (List.mem_append_right _ (List.mem_map_of_mem ?_))
    exact List.mem_of_getElem? (i := 2) rfl
  have hfound : o.compute d ⟨some .delete, none⟩ ⟨1, 0⟩ [.char 'j'] = .some res [] := by
    decide +kernel
  exact ⟨hd, ho, hfound, by decide,
    handleKeys_operator_lines e ed d .delete o [.char 'j'] (.cursor ⟨1, 0⟩) res ⟨1, 2⟩ rfl rfl rfl
      rfl (.inr rfl) hd rfl ho hfound rfl⟩

/-- **Whole lines are pasted between lines.** With cursors on different lines and nothing but whole
lines in the registers, what someone else has put on the clipboard included, the keys `p` and `P`
put the lines of each entry right after or right before the line of its cursor, which comes to rest
on the first of them (`State.PastesLines`). -/
theorem handleKey_paste_lines (e : Engine) (ed : Editor) (d : Document) (below : Bool)
    (hkeymap : e.keymap = .builtin) (hmode : e.session.mode = .normal)
    (hpending : e.session.pending = []) (hdoc : ed.document = some d)
    (hreadonly : ed.readonly = false) (hd : d.LineFeedsOnly)
    (hcursors : ∀ sel ∈ ed.selections, sel.isEmpty)
    (hapart : (ed.selections.map (State.lineOf d)).Nodup)
    (hentries : ∀ entry ∈ (e.state ed).syncRegisters.session.registers.entries, entry.IsLines) :
    ∃ e' ed', e.handleKey ed (pasteKey below) = (.executed (pasteName below), e', ed') ∧
      (e.state ed).syncRegisters.PastesLines e.settings.placement d below (e'.state ed') := by
  have hselections : (e.state ed).syncRegisters.selections = ed.selections :=
    State.selections_syncRegisters _
  have hbrings : (e.state ed).syncRegisters.BringsLines d :=
    ⟨hd, hselections ▸ hcursors, hselections ▸ hapart, hentries⟩
  obtain ⟨s', hs', hkey⟩ := handleKey_pasteKey ⟨hkeymap, hmode, hdoc⟩ hpending
    (Step.ends_paste_lines (s := e.state ed) e.settings.placement below hdoc hreadonly hbrings)
  exact ⟨_, _, hkey, hs'⟩

/-- Two lines and an empty one, pasted below the first and the last line. -/
theorem handleKey_paste_lines_last :
    let d := Document.ofText "ab\n c".toList
    let sels := [.cursor ⟨1, 0⟩, .cursor ⟨0, 1⟩]
    let ed : Editor := { document := some d, selections := sels }
    let e : Engine := { session := { registers :=
      { entries := [.ofLines "x\n  y".toList, .ofLines []] } } }
    d.LineFeedsOnly ∧ (∀ sel ∈ sels, sel.isEmpty) ∧ (sels.map (State.lineOf d)).Nodup ∧
      (∀ entry ∈ (e.state ed).syncRegisters.session.registers.entries, entry.IsLines) ∧
      d.spliced true ((e.state ed).syncRegisters.linesOn d) d.lineCount =
        ["ab".toList, "x".toList, "  y".toList, " c".toList, []] ∧
      ∃ e' ed', e.handleKey ed (.char 'p') = (.executed "paste-after", e', ed') ∧
        (e.state ed).syncRegisters.PastesLines e.settings.placement d true (e'.state ed') := by
  intro d sels ed e
  have hd : d.LineFeedsOnly := by decide
  have hcursors : ∀ sel ∈ sels, sel.isEmpty := by decide
  have hapart : (sels.map (State.lineOf d)).Nodup := by decide
  have hentries : ∀ entry ∈ (e.state ed).syncRegisters.session.registers.entries, entry.IsLines :=
    List.forall_mem_cons.2 ⟨⟨_, rfl, by decide⟩, List.forall_mem_singleton.2 ⟨_, rfl, by decide⟩⟩
  exact ⟨hd, hcursors, hapart, hentries, by decide,
    handleKey_paste_lines e ed d true rfl rfl rfl rfl rfl hd hcursors hapart hentries⟩

end Engine

end ModalEdit
