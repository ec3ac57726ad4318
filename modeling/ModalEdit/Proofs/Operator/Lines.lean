import ModalEdit.Proofs.Operator.Pieces
import ModalEdit.Proofs.Session.Invariant
import ModalEdit.Proofs.Text.Contents

/-!
# An operator on whole lines

When whole lines are deleted, the break that goes with them is the one behind them, or the one in
front if no line follows, or none if they are all lines. Whichever it is, the other lines are left
as they were (`Document.text_delete_lines`). A change takes no break and so leaves one empty line
(`Document.text_change_lines`).

`OperatorKind.ends_apply_lines` says what an operator on the lines under a single cursor leaves: the
lines, the cursor, the mode and what is stored.
-/

namespace ModalEdit

variable {d after : Document} {kind : OperatorKind} {first last : Nat} {withBreak : Bool}
  {r : Range}

namespace Document

/-- Some of the lines of a document. -/
def linesOf (d : Document) (l : LineSpan) : List Text := (d.contents.take (l.last + 1)).drop l.first

/-- The lines of a document without some of them. A document always has a line. -/
def linesWithout (d : Document) (l : LineSpan) : List Text :=
  match d.contents.take l.first ++ d.contents.drop (l.last + 1) with
  | [] => [[]]
  | rest => rest

/-- The lines of a document with an empty one in the place of some of them. -/
def linesEmptied (d : Document) (l : LineSpan) : List Text :=
  d.contents.take l.first ++ [] :: d.contents.drop (l.last + 1)

/-! ### One range -/

/-- The document without a range. -/
def cutOut (d : Document) (r : Range) : Document :=
  ofText (d.text.take (d.offsetOf r.start) ++ d.text.drop (d.offsetOf r.stop))

theorem mergeRanges_singleton (d : Document) (r : Range) : d.mergeRanges [r] = [r] := by
  simp [mergeRanges, Range.mergeFrom]

/-- **A single range is taken out** as it is, and what began with it is followed to where it has
been. -/
theorem edit_deletions_singleton (hr : d.Fits r) :
    ∃ plan, d.edit (OperatorKind.deletions (d.mergeRanges [r])) = .ok (d.cutOut r, plan) ∧
      plan.mapOffset (d.offsetOf r.start) = d.offsetOf r.start := by
  rw [mergeRanges_singleton, OperatorKind.deletions]
  by_cases hempty : r.isEmpty
  · -- There is nothing to take out.
    have hsame : r.start = r.stop := by simpa [Range.isEmpty] using hempty
    have hdoc : d.cutOut r = d := eq_of_text (by simp [cutOut, hsame])
    refine ⟨⟨[]⟩, ?_, rfl⟩
    rw [List.filter_cons_of_neg (by simp [hempty]), List.filter_nil, List.map_nil, edit_nil, hdoc]
  · have hedit := (edit_deletions (List.forall_mem_singleton.2 hr) (List.pairwise_singleton _ _)).2
    rw [List.filter_cons_of_pos (by simp [hempty]), List.filter_nil]
    have hsingle : d.offsetDeletions [r] = [⟨d.offsetOf r.start, d.offsetOf r.stop, [], 0⟩] := rfl
    have hcut : ofText (rebuild d.text 0 (d.offsetDeletions [r])) = d.cutOut r := by
      rw [hsingle]
      simp [cutOut, rebuild, cut]
    rw [hcut] at hedit
    refine ⟨_, hedit, ?_⟩
    have := hr.offsetOf_le
    simp only [hsingle, Plan.mapOffset, Plan.follow, Nat.lt_irrefl, ↓reduceIte, List.length_nil]
    split <;> omega

/-! ### The lines left -/

theorem isLine_of_mem_linesWithout (hd : d.LineFeedsOnly) {l : LineSpan} :
    ∀ t ∈ d.linesWithout l, IsLine t := by
  intro t ht
  unfold linesWithout at ht
  split at ht
  · exact List.mem_singleton.1 ht ▸ isLine_nil
  · rcases List.mem_append.1 ht with ht | ht
    · exact isLine_of_mem_contents hd (List.mem_of_mem_take ht)
    · exact isLine_of_mem_contents hd (List.mem_of_mem_drop ht)

theorem isLine_of_mem_linesEmptied (hd : d.LineFeedsOnly) {l : LineSpan} :
    ∀ t ∈ d.linesEmptied l, IsLine t := by
  intro t ht
  rcases List.mem_append.1 ht with ht | ht
  · exact isLine_of_mem_contents hd (List.mem_of_mem_take ht)
  · rcases List.mem_cons.1 ht with rfl | ht
    · exact isLine_nil
    · exact isLine_of_mem_contents hd (List.mem_of_mem_drop ht)

theorem linesWithout_of_lt (hlt : last < d.lastLine) :
    d.linesWithout ⟨first, last⟩ = d.contents.take first ++ d.contents.drop (last + 1) := by
  have hrest : d.contents.drop (last + 1) ≠ [] := by
    have := d.lastLine_add_one
    rw [Ne, List.drop_eq_nil_iff, length_contents]
    omega
  unfold linesWithout
  split
  · rename_i hnil
    exact absurd (List.append_eq_nil_iff.1 hnil).2 hrest
  · rfl

theorem linesWithout_of_pos (hpos : 0 < first) (hlast : d.lastLine ≤ last) :
    d.linesWithout ⟨first, last⟩ = d.contents.take first := by
  have hfirst : d.contents.take first ≠ [] := by
    have := d.lineCount_pos
    rw [Ne, List.take_eq_nil_iff, ← List.length_eq_zero_iff, length_contents]
    omega
  have hrest : d.contents.drop (last + 1) = [] := drop_contents_of_lt (by omega)
  unfold linesWithout
  split
  · rename_i hnil
    exact absurd (List.append_eq_nil_iff.1 hnil).1 hfirst
  · rw [hrest, List.append_nil]

theorem linesWithout_all : d.linesWithout ⟨0, d.lastLine⟩ = [[]] := by
  have hrest : d.contents.drop (d.lastLine + 1) = [] := drop_contents_of_lt (by omega)
  simp [linesWithout, hrest]

/-- **What is left of the text when whole lines are deleted** are the other lines. -/
theorem text_delete_lines (hd : d.LineFeedsOnly) (hle : first ≤ last) (hlast : last ≤ d.lastLine) :
    (d.cutOut (d.linesSpan first last true)).text ++ ['\n'] =
      ended (d.linesWithout ⟨first, last⟩) := by
  rw [cutOut, text_ofText, List.append_assoc]
  rcases Nat.lt_or_eq_of_le hlast with hlt | rfl
  · -- The break behind the lines goes with them.
    rw [start_linesSpan_of_lt hle hlt, stop_linesSpan_of_lt hle hlt, offsetOf_lineStart (by omega),
      offsetOf_lineStart hlt, take_lineStart hd (by omega), drop_lineStart hd hlt,
      linesWithout_of_lt hlt, ended_append]
  · rw [stop_linesSpan_lastLine hle, endPosition, offsetOf_lineEnd_lastLine, size, List.drop_length,
      List.nil_append]
    by_cases hpos : 0 < first
    · -- The break in front of them goes with them.
      rw [start_linesSpan hle hlast, if_pos ⟨rfl, rfl, hpos⟩, take_lineEnd hd (by omega),
        Nat.sub_add_cancel hpos, linesWithout_of_pos hpos (Nat.le_refl _)]
    · obtain rfl := Nat.eq_zero_of_not_pos hpos
      rw [start_linesSpan hle hlast, if_neg fun h => hpos h.2.2, offsetOf_lineStart (Nat.zero_le _),
        lineStart_zero, List.take_zero, linesWithout_all]
      rfl

/-- **What is left of the text when whole lines are changed** is an empty line in their place. -/
theorem text_change_lines (hd : d.LineFeedsOnly) (hle : first ≤ last) (hlast : last ≤ d.lastLine) :
    (d.cutOut (d.linesSpan first last false)).text ++ ['\n'] =
      ended (d.linesEmptied ⟨first, last⟩) := by
  rw [cutOut, text_ofText, List.append_assoc, start_linesSpan hle hlast, stop_linesSpan hle hlast,
    if_neg (by simp), if_neg (by simp), offsetOf_lineStart (by omega), take_lineStart hd (by omega),
    drop_lineEnd hd hlast, linesEmptied, ended_append, ended_cons, List.nil_append]

/-! ### Where the lines have been -/

/-- A line that is left behind the same lines begins where it began. -/
theorem positionAt_lineStart_of_take (hd : d.LineFeedsOnly) (hafter : after.LineFeedsOnly)
    (hfirst : first ≤ d.lastLine) (hleft : first ≤ after.lastLine)
    (htake : after.contents.take first = d.contents.take first) :
    after.positionAt (d.lineStart first) = ⟨first, 0⟩ := by
  rw [lineStart_eq_length_ended hd hfirst, ← htake, positionAt_length_ended hafter hleft]

/-- Where whole lines have been deleted there is the line behind them, or else the last line. -/
theorem line_positionAt_delete_lines (hd : d.LineFeedsOnly) (hle : first ≤ last)
    (hlast : last ≤ d.lastLine) (hcut : d.cutOut (d.linesSpan first last true) = after)
    (hafter : after.LineFeedsOnly) (hcontents : after.contents = d.linesWithout ⟨first, last⟩) :
    (after.positionAt (d.offsetOf (d.linesSpan first last true).start)).line =
      min first after.lastLine := by
  have hcount := congrArg List.length hcontents
  rw [length_contents, ← after.lastLine_add_one] at hcount
  have hcounted := d.lastLine_add_one
  rcases Nat.lt_or_eq_of_le hlast with hlt | rfl
  · rw [linesWithout_of_lt hlt] at hcontents hcount
    have hlength := length_take_contents (Nat.le_trans hle hlast)
    have hleft : first ≤ after.lastLine := by
      rw [List.length_append, hlength, List.length_drop, length_contents] at hcount
      omega
    have htake : after.contents.take first = d.contents.take first := by
      rw [hcontents, List.take_left' hlength]
    rw [Nat.min_eq_left hleft, start_linesSpan_of_lt hle hlt, offsetOf_lineStart (by omega),
      positionAt_lineStart_of_take hd hafter (by omega) hleft htake]
  · -- Nothing is left behind the lines.
    have hsize : after.size = d.offsetOf (d.linesSpan first d.lastLine true).start := by
      rw [← hcut, cutOut, size, text_ofText, stop_linesSpan_lastLine hle, endPosition,
        offsetOf_lineEnd_lastLine, size, List.drop_length, List.append_nil,
        List.length_take_of_le (d.offsetOf_le_size _)]
    have hleft : after.lastLine ≤ first := by
      by_cases hpos : 0 < first
      · rw [linesWithout_of_pos hpos (Nat.le_refl _), List.length_take, length_contents] at hcount
        omega
      · obtain rfl := Nat.eq_zero_of_not_pos hpos
        rw [linesWithout_all, List.length_singleton] at hcount
        omega
    rw [Nat.min_eq_right hleft, ← hsize, ← offsetOf_lineEnd_lastLine,
      hafter.positionAt_offsetOf (inBounds_lineEnd (lastLine_lt _))]
    rfl

/-- Where whole lines have been changed there is an empty line. -/
theorem positionAt_change_lines (hd : d.LineFeedsOnly) (hle : first ≤ last)
    (hlast : last ≤ d.lastLine) (hafter : after.LineFeedsOnly)
    (hcontents : after.contents = d.linesEmptied ⟨first, last⟩) :
    after.positionAt (d.offsetOf (d.linesSpan first last false).start) = ⟨first, 0⟩ := by
  have hcounted := d.lastLine_add_one
  have hlength := length_take_contents (Nat.le_trans hle hlast)
  have hcount := congrArg List.length hcontents
  rw [length_contents, ← after.lastLine_add_one, linesEmptied, List.length_append, hlength,
    List.length_cons] at hcount
  have htake : after.contents.take first = d.contents.take first := by
    rw [hcontents, linesEmptied, List.take_left' hlength]
  rw [start_linesSpan hle hlast, if_neg (by simp), offsetOf_lineStart (by omega)]
  exact positionAt_lineStart_of_take hd hafter (by omega) (by omega) htake

/-! ### What is stored -/

theorem linesOf_ne_nil (hle : first ≤ last) (hlast : last ≤ d.lastLine) :
    d.linesOf ⟨first, last⟩ ≠ [] := by
  have := d.lastLine_add_one
  rw [linesOf, Ne, List.drop_eq_nil_iff, List.length_take, length_contents]
  dsimp only
  omega

theorem linesText_eq (d : Document) (first last : Nat) :
    d.linesText first last = ended (d.linesOf ⟨first, last⟩) := by
  rw [linesText, ended, linesOf, contents, ← List.map_take, ← List.map_drop, List.map_map]
  rfl

/-- The entry for whole lines is these lines, each with a line feed behind it. -/
theorem registerEntry_linesSpan (hle : first ≤ last) (hlast : last ≤ d.lastLine) :
    d.registerEntry (d.linesSpan first last withBreak) =
      ⟨ended (d.linesOf ⟨first, last⟩), true⟩ := by
  rw [registerEntry, lines_linesSpan_of_le hle hlast]
  dsimp only
  rw [linesText_eq, ended, ← intercalate_append_newline (linesOf_ne_nil hle hlast),
    RegisterEntry.ofLines, RegisterEntry.make_append_newline]

theorem entries_linesSpan (hle : first ≤ last) (hlast : last ≤ d.lastLine) :
    ((d.mergeRanges [d.linesSpan first last withBreak]).map d.registerEntry).filter
        (fun e => !e.text.isEmpty) = [⟨ended (d.linesOf ⟨first, last⟩), true⟩] := by
  have hne : ended (d.linesOf ⟨first, last⟩) ≠ [] := by
    rw [ended, ← intercalate_append_newline (linesOf_ne_nil hle hlast)]
    simp
  rw [mergeRanges_singleton, List.map_singleton, registerEntry_linesSpan hle hlast,
    List.filter_cons_of_pos (by simpa using hne), List.filter_nil]

end Document

/-! ### The operator -/

namespace OperatorKind

open Document

/-- What an operator on some lines of the document leaves. The lines are stored. Deleted, they are
gone, and the cursor rests on the line behind them, or else on the last line. Changed, they are one
empty line in which typing goes on. Yanked, they stay. -/
def LeavesLines (kind : OperatorKind) (pl : Placement) (d : Document) (l : LineSpan) (s : State) :
    Prop :=
  s.session.registers.entries = [⟨ended (d.linesOf l), true⟩] ∧
    ∃ after, s.editor.document = some after ∧ after.LineFeedsOnly ∧
      match kind with
      | .delete =>
        let i := min l.first after.lastLine
        after.contents = d.linesWithout l ∧ s.mode = .normal ∧
          s.selections = [.cursor (pl.clamp after ⟨i, after.firstNonBlank i⟩)]
      | .change =>
        after.contents = d.linesEmptied l ∧ s.mode = .insert ∧
          s.selections = [.cursor ⟨l.first, 0⟩]
      | .yank => after = d ∧ s.mode = .normal

variable {s : State} {pl : Placement} {sel : Selection} {l : LineSpan}

/-- An operator that removes lines takes them out, stores them and goes to where they have been. -/
theorem apply_lines (hkind : kind ≠ .yank) (pl : Placement) (sel : Selection)
    (hdoc : s.editor.document = some d) (hreadonly : s.editor.readonly = false) (hle : first ≤ last)
    (hlast : last ≤ d.lastLine) (hcut : d.cutOut (d.linesSpan first last withBreak) = after) :
    let p := after.positionAt (d.offsetOf (d.linesSpan first last withBreak).start)
    let rest := pl.clamp after ⟨p.line, after.firstNonBlank p.line⟩
    kind.apply pl d [(sel, some (d.linesSpan first last withBreak))] false s =
      .ok () ((((s.edited after).writeRegisters
        [⟨ended (d.linesOf ⟨first, last⟩), true⟩]).setCursors
          [if kind = .change then p else rest]).setMode
            (if kind = .change then .insert else .normal)) := by
  intro p rest
  obtain ⟨plan, hedit, hmap⟩ := edit_deletions_singleton (d.fits_linesSpan first last withBreak)
  rw [hcut] at hedit
  have hranges : [(sel, some (d.linesSpan first last withBreak))].filterMap (·.2) =
      [d.linesSpan first last withBreak] := rfl
  have hcursor : kind.removedTo pl d after plan false
      (sel, some (d.linesSpan first last withBreak)) = if kind = .change then p else rest := by
    simp [removedTo, Range.isLinewise, hmap, p, rest]
  rw [apply_of_edit pl hkind false hdoc hreadonly hranges hedit, entries_linesSpan hle hlast,
    List.map_singleton, hcursor]

/-- A single position is a single cursor. -/
theorem selections_setCursors_singleton (s : State) (p : Position) :
    (s.setCursors [p]).selections = [.cursor p] := by
  rw [State.selections_setCursors, eraseDups_eq_self (List.nodup_singleton p), List.map_singleton]

/-- Lines are deleted. -/
theorem ends_delete_lines (pl : Placement) (sel : Selection) (hdoc : s.editor.document = some d)
    (hreadonly : s.editor.readonly = false) (hd : d.LineFeedsOnly) (hle : first ≤ last)
    (hlast : last ≤ d.lastLine) :
    (delete.apply pl d [(sel, some (d.linesSpan first last true))] false).Ends s
      (fun _ s' => delete.LeavesLines pl d ⟨first, last⟩ s') fun _ _ => False := by
  have htext := text_delete_lines hd hle hlast
  generalize hcut : d.cutOut (d.linesSpan first last true) = after at htext
  have hafter := lineFeedsOnly_of_ended htext (isLine_of_mem_linesWithout hd)
  have hcontents := contents_of_ended htext (isLine_of_mem_linesWithout hd)
  have hline := line_positionAt_delete_lines hd hle hlast hcut hafter hcontents
  have hkind : delete ≠ .yank := by decide
  rw [Step.ends_of_ok (apply_lines hkind pl sel hdoc hreadonly hle hlast hcut)]
  refine ⟨?_, after, ?_, hafter, hcontents, ?_, ?_⟩
  · simp [State.entries_writeRegisters]
  · simp
  · simp
  · rw [State.selections_setMode, selections_setCursors_singleton, if_neg (by decide), hline]

/-- Lines are changed. -/
theorem ends_change_lines (pl : Placement) (sel : Selection) (hdoc : s.editor.document = some d)
    (hreadonly : s.editor.readonly = false) (hd : d.LineFeedsOnly) (hle : first ≤ last)
    (hlast : last ≤ d.lastLine) :
    (change.apply pl d [(sel, some (d.linesSpan first last false))] false).Ends s
      (fun _ s' => change.LeavesLines pl d ⟨first, last⟩ s') fun _ _ => False := by
  have htext := text_change_lines hd hle hlast
  generalize hcut : d.cutOut (d.linesSpan first last false) = after at htext
  have hafter := lineFeedsOnly_of_ended htext (isLine_of_mem_linesEmptied hd)
  have hcontents := contents_of_ended htext (isLine_of_mem_linesEmptied hd)
  have hplace := positionAt_change_lines hd hle hlast hafter hcontents
  have hkind : change ≠ .yank := by decide
  rw [Step.ends_of_ok (apply_lines hkind pl sel hdoc hreadonly hle hlast hcut)]
  refine ⟨?_, after, ?_, hafter, hcontents, ?_, ?_⟩
  · simp [State.entries_writeRegisters]
  · simp
  · simp
  · rw [State.selections_setMode, selections_setCursors_singleton, if_pos rfl, hplace]

/-- Lines are yanked. -/
theorem ends_yank_lines (pl : Placement) (sel : Selection) (hdoc : s.editor.document = some d)
    (hd : d.LineFeedsOnly) (hle : first ≤ last) (hlast : last ≤ d.lastLine) :
    (yank.apply pl d [(sel, some (d.linesSpan first last withBreak))] false).Ends s
      (fun _ s' => yank.LeavesLines pl d ⟨first, last⟩ s') fun _ _ => False := by
  simp only [apply, ↓reduceIte, Step.ends_modify, List.filterMap_cons, List.filterMap_nil,
    entries_linesSpan hle hlast]
  refine ⟨?_, d, ?_, hd, rfl, ?_⟩
  · simp [State.entries_writeRegisters]
  · simpa using hdoc
  · simp

/-- **An operator on whole lines** acts on exactly these lines, wherever the break is that goes with
them. -/
theorem ends_apply_lines (kind : OperatorKind) (pl : Placement) (sel : Selection) {r : Range}
    {l : LineSpan} (hdoc : s.editor.document = some d)
    (hwritable : kind = .yank ∨ s.editor.readonly = false) (hd : d.LineFeedsOnly)
    (hr : d.IsSpan (kind != .change) r) (hl : r.lines = some l) :
    (kind.apply pl d [(sel, some r)] false).Ends s (fun _ s' => kind.LeavesLines pl d l s')
      fun _ _ => False := by
  cases hr with
  | chars hr => exact absurd (hl.symm.trans hr.lines) nofun
  | @lines first last hle hlast =>
    rw [lines_linesSpan_of_le hle hlast, Option.some.injEq] at hl
    subst hl
    cases kind with
    | delete => exact ends_delete_lines pl sel hdoc (hwritable.resolve_left nofun) hd hle hlast
    | yank => exact ends_yank_lines pl sel hdoc hd hle hlast
    | change => exact ends_change_lines pl sel hdoc (hwritable.resolve_left nofun) hd hle hlast

end OperatorKind

end ModalEdit
