import ModalEdit.Proofs.Command.Paste
import ModalEdit.Proofs.Text.Accepted

/-!
# Opening and joining lines

Both commands make one edit for each line that holds a cursor, however many cursors are on it
(`State.cursorLines_eq`).

Opening lines only puts text in: a line feed and the indent at the end of a line, or the indent and
a line feed at its start. Either way this brings one new line (`State.splices_openLineEdits`), and
the cursor goes to its end (`State.cursor_openLine`), so every line that holds a cursor gets one
line below or above it (`Step.ends_openLine`).

Every edit that joins two lines takes out a line feed and the white space behind it, and puts in
white space at most (`joinEdit_joins`). No two of them overlap, for the piece of each ends on the
line behind its own (`State.legal_joinLinesEdits`), so lines are always joined, and what is not
white space stays (`Step.ends_joinLines`).
-/

namespace ModalEdit

variable {d after : Document} {s : State} {edits : List Edit} {plan : Plan}

theorem State.cursorLines_eq (s : State) (d : Document) :
    s.cursorLines d = (s.selections.map (lineOf d)).eraseDups := by
  rw [cursorLines, cursorsIn, eraseDups_map_eraseDups, List.map_map]
  rfl

/-! ### Opening lines -/

section

variable {below : Bool} {i k : Nat}

theorem openLineEdit_eq (d : Document) (below : Bool) (i : Nat) :
    openLineEdit d below i = .insert (d.splicePlace below i)
      (if below then '\n' :: d.indent i else d.indent i ++ ['\n']) := by
  cases below <;> rfl

namespace State

/-- The line that is opened at a line, if there is a cursor on it. -/
def openedAt (s : State) (d : Document) (i : Nat) : List Text :=
  if i ∈ s.selections.map (lineOf d) then [d.indent i] else []

/-- What opening lines leaves: right below or above every line with a cursor there is a new line
with its indent, and in Insert mode there is a cursor at the end of each new line. -/
def OpensLines (s : State) (d : Document) (below : Bool) (s' : State) : Prop :=
  s'.mode = .insert ∧ ∃ after, s'.editor.document = some after ∧ after.LineFeedsOnly ∧
    after.contents = d.spliced below (s.openedAt d) d.lineCount ∧
    s'.selections = (s.selections.map (lineOf d)).eraseDups.map fun i =>
      .cursor (after.lineEnd (d.splicedFirst below (s.openedAt d) i))

theorem openLineEdits_eq (s : State) (d : Document) (below : Bool) :
    s.openLineEdits d below = (s.selections.map (lineOf d)).eraseDups.map fun i =>
      .insert (d.splicePlace below i)
        (if below then '\n' :: d.indent i else d.indent i ++ ['\n']) := by
  rw [openLineEdits, cursorLines_eq]
  exact List.map_congr_left fun i _ => openLineEdit_eq d below i

theorem le_of_mem_lines (hi : i ∈ (s.selections.map (lineOf d)).eraseDups) : i ≤ d.lastLine := by
  obtain ⟨sel, -, rfl⟩ := List.mem_map.1 (List.mem_eraseDups.1 hi)
  exact lineOf_le d sel

theorem openedAt_of_mem (hi : i ∈ (s.selections.map (lineOf d)).eraseDups) :
    s.openedAt d i = [d.indent i] := if_pos (List.mem_eraseDups.1 hi)

theorem isLine_indent (hd : d.LineFeedsOnly) (hi : i ≤ d.lastLine) : IsLine (d.indent i) := by
  have hline := Document.isLine_content hd (Document.lt_lineCount hi)
  exact fun c hc => hline c ((List.takeWhile_prefix _).subset hc)

/-- **Opening lines brings one line** to every line with a cursor. -/
theorem splices_openLineEdits (s : State) (hd : d.LineFeedsOnly) (below : Bool) :
    d.Splices below (s.openedAt d) (d.insertedAt (s.openLineEdits d below)) := by
  rw [openLineEdits_eq]
  refine Document.splices_of_places _ hd (fun i hi => le_of_mem_lines hi) fun i _ => ?_
  rw [List.filter_beq]
  by_cases hi : i ∈ (s.selections.map (lineOf d)).eraseDups
  · rw [List.count_eq_one_of_mem (nodup_eraseDups _) hi, openedAt_of_mem hi]
    cases below <;> simp
  · have hnone : s.openedAt d i = [] := if_neg fun hmem => hi (List.mem_eraseDups.2 hmem)
    rw [List.count_eq_zero.2 hi, hnone]
    cases below <;> rfl

theorem isLine_of_mem_openedAt (hd : d.LineFeedsOnly) {l : Text} (hl : l ∈ s.openedAt d i) :
    IsLine l := by
  unfold openedAt at hl
  split at hl
  · rename_i hmem
    obtain rfl := List.mem_singleton.1 hl
    exact isLine_indent hd (le_of_mem_lines (List.mem_eraseDups.2 hmem))
  · cases hl

variable (hd : d.LineFeedsOnly) (hafter : after.LineFeedsOnly)
  (hcontents : after.contents = d.spliced below (s.openedAt d) d.lineCount)

include hd hafter hcontents

/-- Where the cursor of an opened line goes: the command looks for the end of the text that it has
put in, less the line feed that ends the text above a line. -/
theorem positionAt_openLine (hi : i ∈ (s.selections.map (lineOf d)).eraseDups) :
    after.positionAt ((weaveTo (d.insertedAt (s.openLineEdits d below)) 0
        (d.text.take (d.offsetOf (d.splicePlace below i)))).length + below.toNat +
          (d.indent i).length) =
      after.lineEnd (d.splicedFirst below (s.openedAt d) i) := by
  have hle := le_of_mem_lines hi
  have hopened := openedAt_of_mem hi
  have hne : s.openedAt d i ≠ [] := hopened ▸ List.cons_ne_nil _ _
  have hfirst := (splices_openLineEdits s hd below).lineStart_first hd hafter hcontents hle hne
  have hlen : after.lineLen (d.splicedFirst below (s.openedAt d) i) = (d.indent i).length :=
    congrArg List.length (Document.content_splicedFirst hcontents hle hopened)
  have hin := Document.inBounds_lineEnd
    (Document.lt_lineCount (Document.splicedFirst_le hcontents hle hne))
  have hoffset := Document.offsetOf_of_inBounds hin
  rw [hfirst, ← hlen]
  exact (congrArg after.positionAt hoffset.symm).trans (hafter.positionAt_offsetOf hin)

/-- The command finds the cursor of the line with number `k`. -/
theorem cursor_openLine (hi : (s.selections.map (lineOf d)).eraseDups[k]? = some i) :
    let plan : Plan := ⟨d.inOrder (s.openLineEdits d below)⟩
    (do
      if below then
        return after.positionAt (← plan.endOf? k)
      else
        return after.positionAt
          ((← plan.startOf? k) + (openLineEdit d below i).text.length - 1)) =
      some (after.lineEnd (d.splicedFirst below (s.openedAt d) i)) := by
  intro plan
  have hline : ∀ i ∈ (s.selections.map (lineOf d)).eraseDups, i ≤ d.lastLine := fun _ =>
    le_of_mem_lines
  have hnodup : ((s.openLineEdits d below).map fun e => d.offsetOf e.range.start).Nodup := by
    rw [openLineEdits_eq]
    refine Document.nodup_splicePlaces _ hd hline ?_
    rw [List.map_id']
    exact nodup_eraseDups _
  have hinserts : ∀ e ∈ s.openLineEdits d below, d.Inserts e := by
    rw [openLineEdits_eq]
    exact Document.inserts_splicePlace _ hline
  have hget : (s.openLineEdits d below)[k]? = some (openLineEdit d below i) := by
    rw [openLineEdits, cursorLines_eq, List.getElem?_map, hi, Option.map_some]
  have hstart := Document.startOf?_of_insertions hinserts hnodup hget
  have hstop := Document.endOf?_of_plan (Document.plan_of_insertions hinserts) hget
  have hplace : (openLineEdit d below i).range.start = d.splicePlace below i := by
    rw [openLineEdit_eq]
    rfl
  rw [hplace] at hstart
  rw [← positionAt_openLine hd hafter hcontents (List.mem_of_getElem? hi)]
  rw [hstart] at hstop
  -- Below a line the cursor is at the end of what is put in, above a line before its line feed.
  cases below with
  | true =>
    have hsum : ∀ o n : Nat, o + (n + 1) = o + 1 + n := by omega
    rw [if_pos rfl, hstop]
    exact congrArg (some ∘ after.positionAt) (hsum _ _)
  | false =>
    have hlength : (openLineEdit d false i).text.length - 1 = (d.indent i).length := by
      simp [openLineEdit_eq, Edit.insert]
    rw [if_neg Bool.false_ne_true, hstart, ← hlength]
    refine congrArg (some ∘ after.positionAt) (Nat.add_sub_assoc ?_ _)
    simp [openLineEdit_eq, Edit.insert]

end State

/-- **Opening lines** always succeeds and puts one line below or above every line with a cursor. -/
theorem Step.ends_openLine (below : Bool) (hdoc : s.editor.document = some d)
    (hreadonly : s.editor.readonly = false) (hd : d.LineFeedsOnly) :
    (openLine d below).Ends s (fun _ s' => s.OpensLines d below s') fun _ _ => False := by
  have hinserts : ∀ e ∈ s.openLineEdits d below, d.Inserts e := by
    rw [State.openLineEdits_eq]
    exact Document.inserts_splicePlace _ fun _ => State.le_of_mem_lines
  let after := Document.ofText (d.inserted (s.openLineEdits d below))
  let plan : Plan := ⟨d.inOrder (s.openLineEdits d below)⟩
  obtain ⟨hafter, hcontents⟩ := (State.splices_openLineEdits s hd below).contents_inserted hd
    fun i l => State.isLine_of_mem_openedAt hd
  have hedit : d.edit (s.openLineEdits d below) = .ok (after, plan) :=
    Document.edit_insertions hinserts
  simp only [openLine, ends_bind, ends_get]
  rw [ends_of_ok (commit_of_edit hdoc hreadonly hedit), ends_modify]
  refine ⟨rfl, after, rfl, hafter, hcontents, ?_⟩
  have hnodup : ((s.selections.map (State.lineOf d)).eraseDups.map fun i =>
      after.lineEnd (d.splicedFirst below (s.openedAt d) i)).Nodup := by
    refine (nodup_eraseDups _).map fun i j heq => ?_
    exact (Document.strictMono_splicedFirst d below _).injective (congrArg Position.line heq)
  rw [State.selections_setMode, State.selections_setCursors, State.openLineEdits,
    State.cursorLines_eq, List.zipIdx_map, List.filterMap_map, filterMap_zipIdx_eq_map
      (g := fun i => after.lineEnd (d.splicedFirst below (s.openedAt d) i)),
    eraseDups_eq_self hnodup, List.map_map]
  · rfl
  · exact fun k i hi => State.cursor_openLine hd hafter hcontents hi

end

/-! ### Taking line feeds out -/

/-- A line feed and white space behind it are taken out, and white space at most is put in. -/
structure Joins (piece text : Text) : Prop where
  /-- What is taken out. -/
  piece : ∃ t, piece = '\n' :: t ∧ ∀ c ∈ t, isBlank c ∧ c ≠ '\n'
  /-- What is put in. -/
  text : ∀ c ∈ text, isBlank c ∧ ¬ isLineBreak c

namespace Joins

variable {piece text : Text} (h : Joins piece text)
include h

/-- Nothing but white space is concerned. -/
theorem filter_eq : text.filter (fun c => !isBlank c) = piece.filter fun c => !isBlank c := by
  obtain ⟨t, rfl, ht⟩ := h.piece
  have hpiece : ('\n' :: t).filter (fun c => !isBlank c) = [] := by
    refine List.filter_eq_nil_iff.2 (List.forall_mem_cons.2 ⟨?_, fun c hc => ?_⟩)
    · simp [isBlank_newline]
    · simp [(ht c hc).1]
  rw [hpiece]
  exact List.filter_eq_nil_iff.2 fun c hc => by simp [(h.text c hc).1]

theorem count_piece : piece.count '\n' = 1 := by
  obtain ⟨t, rfl, ht⟩ := h.piece
  have hnone : t.count '\n' = 0 := List.count_eq_zero.2 fun hmem => (ht _ hmem).2 rfl
  rw [List.count_cons_self, hnone]

end Joins

namespace Document

section

variable (hedit : d.edit edits = .ok (after, plan))
  (hjoins : ∀ e ∈ edits, Joins (d.slice e.range) e.text)

include hedit hjoins

/-- The same of the edits of the plan. -/
theorem joins_of_mem_plan :
    ∀ f ∈ plan.edits, Joins (cut d.text f.start f.stop) f.text := by
  intro f hf
  obtain ⟨-, -, hplan⟩ := plan_eq_ok_iff.1 (edit_eq_ok_iff.1 hedit).1
  rw [hplan] at hf
  obtain ⟨e, he, hstart, hstop, htext⟩ := exists_of_mem_inOrder hf
  rw [hstart, hstop, htext]
  exact hjoins e he

variable (hfits : ∀ e ∈ edits, d.Fits e.range)
include hfits

/-- What is not white space stays. -/
theorem filter_of_joins :
    after.text.filter (fun c => !isBlank c) = d.text.filter fun c => !isBlank c := by
  have hseq := inSequence_of_plan hfits (edit_eq_ok_iff.1 hedit).1
  rw [text_of_edit hfits hedit]
  exact filter_rebuild hseq fun f hf => (joins_of_mem_plan hedit hjoins f hf).filter_eq

theorem lineFeedsOnly_of_joins (hd : d.LineFeedsOnly) : after.LineFeedsOnly := by
  intro c hc hbreak
  rw [text_of_edit hfits hedit] at hc
  rcases mem_rebuild hc with hc | ⟨f, hf, hc⟩
  · exact hd c hc hbreak
  · have hnone := (joins_of_mem_plan hedit hjoins f hf).text c hc
    exact absurd hbreak hnone.2

/-- **Every edit of the batch takes out a line.** -/
theorem lineCount_of_joins (hd : d.LineFeedsOnly) :
    after.lineCount + edits.length = d.lineCount := by
  have hplan := (edit_eq_ok_iff.1 hedit).1
  have hpieces : (plan.edits.flatMap fun f => cut d.text f.start f.stop).count '\n' =
      plan.edits.length := by
    have hone : plan.edits.map (List.count '\n' ∘ fun f => cut d.text f.start f.stop) =
        plan.edits.map fun _ => 1 := List.map_congr_left fun f hf =>
      (joins_of_mem_plan hedit hjoins f hf).count_piece
    rw [List.count_flatMap, hone]
    simp
  have htexts : (plan.edits.flatMap (·.text)).count '\n' = 0 := by
    refine List.count_eq_zero.2 fun hmem => ?_
    obtain ⟨f, hf, hmem⟩ := List.mem_flatMap.1 hmem
    exact ((joins_of_mem_plan hedit hjoins f hf).text _ hmem).2 (by decide)
  have hlength : plan.edits.length = edits.length := by
    rw [(plan_eq_ok_iff.1 hplan).2.2, length_inOrder]
  have hcount : after.text.count '\n' + plan.edits.length = d.text.count '\n' := by
    have hperm := (perm_rebuild (inSequence_of_plan hfits hplan)).count_eq '\n'
    rwa [List.count_append, List.count_append, hpieces, htexts, ← text_of_edit hfits hedit] at hperm
  rw [lineCount_eq_count (lineFeedsOnly_of_joins hedit hjoins hfits hd), lineCount_eq_count hd]
  omega

end

end Document

/-! ### Joining lines -/

variable {comment : Option Text} {i j : Nat}

/-- Without a comment token the white space at the front of a line is dropped. -/
theorem joinSkip_of_no_token (hcomment : comment.getD [] = []) (current next : Text) :
    joinSkip current next comment = (next.takeWhile isBlank).length := by
  cases comment with
  | none => rfl
  | some token =>
    obtain rfl : token = [] := hcomment
    rfl

/-- The piece that joining takes out ends where the text of the next line begins. -/
theorem range_joinEdit (hcomment : comment.getD [] = []) (d : Document) (i : Nat) :
    (joinEdit d comment i).range =
      ⟨d.lineEnd i, ⟨i + 1, d.firstNonBlank (i + 1)⟩, none⟩ := by
  have hle : d.lineEnd i ≤ ⟨i + 1, d.firstNonBlank (i + 1)⟩ := .inl (Nat.lt_succ_self i)
  rw [joinEdit, joinSkip_of_no_token hcomment]
  exact if_pos hle

/-- **Joining two lines only concerns white space.** -/
theorem joinEdit_joins (hd : d.LineFeedsOnly) (hcomment : comment.getD [] = [])
    (hi : i < d.lastLine) :
    Joins (d.slice (joinEdit d comment i).range) (joinEdit d comment i).text where
  piece := by
    have hcut := Document.cut_lineEnd hd hi (Document.firstNonBlank_le (i + 1))
    refine ⟨(d.content (i + 1)).take (d.firstNonBlank (i + 1)), ?_, fun c hc => ?_⟩
    · rw [range_joinEdit hcomment]
      exact hcut
    · have hfront : (d.content (i + 1)).take (d.firstNonBlank (i + 1)) =
          (d.content (i + 1)).takeWhile isBlank :=
        (List.prefix_iff_eq_take.1 (List.takeWhile_prefix isBlank)).symm
      have hline := Document.isLine_content hd (Document.lt_lineCount hi)
      rw [hfront] at hc
      refine ⟨List.all_eq_true.1 List.all_takeWhile c hc, ?_⟩
      rintro rfl
      exact hline _ ((List.takeWhile_prefix isBlank).subset hc) (by decide)
  text := by
    intro c hc
    simp only [joinEdit, Edit.replace] at hc
    split at hc
    · cases hc
    · obtain rfl := List.mem_singleton.1 hc
      exact ⟨isBlank_space, by decide⟩

/-- Of two lines the piece of the first ends before that of the second begins. -/
theorem offsetOf_joinEdit_le (hcomment : comment.getD [] = []) (hij : i < j) (hj : j ≤ d.lastLine) :
    d.offsetOf (joinEdit d comment i).range.stop ≤
      d.offsetOf (joinEdit d comment j).range.start := by
  rw [range_joinEdit hcomment, range_joinEdit hcomment]
  have hnext : i + 1 ≤ d.lastLine := Nat.le_trans hij hj
  refine Document.offsetOf_mono (Document.inBounds_firstNonBlank (Document.lt_lineCount hnext))
    (Document.inBounds_lineEnd (Document.lt_lineCount hj)) ?_
  rcases Nat.lt_or_eq_of_le hij with hlt | rfl
  · exact .inl hlt
  · exact .inr ⟨rfl, Document.firstNonBlank_le (i + 1)⟩

namespace State

variable {settings : Settings}

/-- The lines that are joined with the next one: those of the cursors but the last one. -/
def joinedLines (s : State) (d : Document) : List Nat :=
  (s.selections.map (lineOf d)).eraseDups.filter (· < d.lastLine)

theorem joinLinesEdits_eq (s : State) (settings : Settings) (d : Document) :
    s.joinLinesEdits settings d =
      (s.joinedLines d).map (joinEdit d (s.editor.language.bind settings.comment?)) := by
  rw [joinLinesEdits, cursorLines_eq, joinedLines]

variable (hcomment : (s.editor.language.bind settings.comment?).getD [] = [])
include hcomment

/-- **Joins never overlap**, not even those of lines that follow one another. -/
theorem legal_joinLinesEdits : d.Legal (s.joinLinesEdits settings d) where
  fits _ := fits_joinLinesEdits
  apart := by
    have hnodup : (s.joinedLines d).Nodup := (nodup_eraseDups _).filter _
    have hlast : ∀ i ∈ s.joinedLines d, i ≤ d.lastLine := fun i hi =>
      Nat.le_of_lt (by simpa using (List.mem_filter.1 hi).2)
    rw [joinLinesEdits_eq, List.pairwise_map]
    refine hnodup.imp_of_mem fun {i j} hi hj hne => ?_
    -- Which of the two lines comes first is not known, as the cursors are in no order.
    rcases Nat.lt_or_gt_of_ne hne with hlt | hlt
    · exact .inl (offsetOf_joinEdit_le hcomment hlt (hlast j hj))
    · exact .inr (offsetOf_joinEdit_le hcomment hlt (hlast i hi))

theorem joinLinesEdits_joins (hd : d.LineFeedsOnly) :
    ∀ e ∈ s.joinLinesEdits settings d, Joins (d.slice e.range) e.text := by
  rw [joinLinesEdits_eq]
  refine List.forall_mem_map.2 fun i hi => joinEdit_joins hd hcomment ?_
  simpa using (List.mem_filter.1 hi).2

theorem exists_edit_joinLinesEdits (hd : d.LineFeedsOnly) :
    ∃ after plan, d.edit (s.joinLinesEdits settings d) = .ok (after, plan) := by
  refine Document.exists_edit_of_pieces (legal_joinLinesEdits hcomment) ?_
  rw [joinLinesEdits_eq]
  refine List.forall_mem_map.2 fun i hi => ?_
  have hlt : i < d.lastLine := by simpa using (List.mem_filter.1 hi).2
  have hfits : d.Fits (joinEdit d (s.editor.language.bind settings.comment?) i).range :=
    fits_joinEdit hlt
  refine (hd.offsetOf_lt_iff hfits.start hfits.stop).2 ?_
  rw [range_joinEdit hcomment]
  exact .inl (Nat.lt_succ_self i)

end State

/-- **Joining lines** always succeeds. It keeps what is not white space, and every join takes a line
away. -/
theorem Step.ends_joinLines {settings : Settings} (hdoc : s.editor.document = some d)
    (hreadonly : s.editor.readonly = false) (hd : d.LineFeedsOnly)
    (hcomment : (s.editor.language.bind settings.comment?).getD [] = []) :
    (joinLines settings d).Ends s (fun _ s' => s'.session = s.session ∧
      ∃ after, s'.editor.document = some after ∧ after.LineFeedsOnly ∧
      after.text.filter (fun c => !isBlank c) = d.text.filter (fun c => !isBlank c) ∧
      after.lineCount + (s.joinedLines d).length = d.lineCount) fun _ _ => False := by
  obtain ⟨after, plan, hedit⟩ := State.exists_edit_joinLinesEdits (s := s) hcomment hd
  have hfits := (State.legal_joinLinesEdits (s := s) (d := d) hcomment).fits
  have hjoins := State.joinLinesEdits_joins (s := s) hcomment hd
  have hlines := Document.lineCount_of_joins hedit hjoins hfits hd
  rw [State.joinLinesEdits_eq, List.length_map] at hlines
  simp only [joinLines, ends_bind, ends_get]
  rw [ends_of_ok (commit_of_edit hdoc hreadonly hedit)]
  have hafter := Document.lineFeedsOnly_of_joins hedit hjoins hfits hd
  have hkept := Document.filter_of_joins hedit hjoins hfits
  split <;> exact ⟨rfl, after, rfl, hafter, hkept, hlines⟩

end ModalEdit
