import ModalEdit.Proofs.Command.Batch
import ModalEdit.Proofs.Command.LinePaste
import ModalEdit.Proofs.Text.Splice

/-!
# Pasting at the cursors

A paste in Normal mode puts the entry of every cursor in before a character and takes nothing away,
so it always runs (`Step.ends_paste`).

Entries of whole lines are put in at the end or at the start of the cursor's line. At the end of a
line an entry is put in with a line feed in front and without the one that ends it, so that the last
line is no exception. So the lines of each entry come right after or right before the line of its
cursor (`State.BringsLines.splices`), and every cursor rests on the first of them
(`State.BringsLines.pasteCursors_eq`).
-/

namespace ModalEdit

variable {d : Document} {s : State} {below : Bool} {entry : Selection → RegisterEntry}

namespace State

/-- The edits of cursors with known entries. -/
theorem pasteEdits_of_entryFor (hne : s.session.registers.entries ≠ [])
    (hstarts : s.selections.Pairwise fun a b => a.start ≠ b.start)
    (hentry : ∀ sel ∈ s.selections,
      s.session.registers.entryFor s.selections sel = some (entry sel)) :
    s.pasteEdits d below = s.selections.map fun sel => pasteEdit d below sel (entry sel) := by
  rw [pasteEdits, pasteEntries_of_entryFor hne hstarts hentry, List.zipWith_map_right]
  exact List.zipWith_self

/-- Every edit of a paste only puts text in. -/
theorem inserts_pasteEdits {e : Edit} (h : e ∈ s.pasteEdits d below) : d.Inserts e := by
  have hfits := fits_pasteEdits h
  obtain ⟨sel, -, entry, -, rfl⟩ := exists_mem_of_mem_zipWith h
  refine ⟨hfits.start, ?_⟩
  simp only [pasteEdit]
  split <;> rfl

end State

/-- Where the cursors go that have an entry. -/
def State.pasteCursors (s : State) (pl : Placement) (d after : Document) (below : Bool) :
    List Position :=
  let plan : Plan := ⟨d.inOrder (s.pasteEdits d below)⟩
  s.pasteEntries.zipIdx.filterMap fun (e, i) => do
    let start ← plan.startOf? i
    let stop ← plan.endOf? i
    return pastedTo pl after below e start stop

/-- What a paste at the cursors leaves. -/
def State.pasted (s : State) (pl : Placement) (d : Document) (below : Bool) : State :=
  let after := Document.ofText (d.inserted (s.pasteEdits d below))
  if s.pasteEntries.isEmpty then s
  else (s.edited after).setCursors (s.pasteCursors pl d after below)

/-- **A paste at the cursors always runs.** -/
theorem Step.ends_paste (pl : Placement) (below : Bool) (hdoc : s.editor.document = some d)
    (hreadonly : s.editor.readonly = false) :
    (Step.paste pl d below).Ends s (fun _ s' => s' = s.syncRegisters.pasted pl d below)
      fun _ _ => False := by
  have hsynced : s.syncRegisters.editor.document = some d := by simpa using hdoc
  have hwritable : s.syncRegisters.editor.readonly = false := by
    rw [State.readonly_eq] at hreadonly ⊢
    simpa using hreadonly
  have hinserts : ∀ e ∈ s.syncRegisters.pasteEdits d below, d.Inserts e := fun _ =>
    State.inserts_pasteEdits
  have hedit := Document.edit_insertions hinserts
  simp only [Step.paste, Step.ends_bind, Step.ends_modify, Step.ends_get, State.pasted]
  split
  · rfl
  · rw [Step.ends_bind, Step.ends_of_ok (Step.commit_of_edit hsynced hwritable hedit)]
    rfl

theorem State.document_pasted (pl : Placement) (below : Bool) (hdoc : s.editor.document = some d) :
    (s.pasted pl d below).editor.document =
      some (.ofText (d.inserted (s.pasteEdits d below))) := by
  unfold pasted
  split
  · rename_i hnone
    have hedits : s.pasteEdits d below = [] := by
      rw [pasteEdits, List.isEmpty_iff.1 hnone, List.zipWith_nil_right]
    rw [hedits, Document.inserted_nil, hdoc]
    exact congrArg some (Document.eq_of_text rfl)
  · rfl

/-- The texts of the batch are put in. -/
theorem Step.ends_paste_inserted (pl : Placement) (below : Bool)
    (hdoc : s.editor.document = some d) (hreadonly : s.editor.readonly = false) :
    (Step.paste pl d below).Ends s (fun _ s' => s'.editor.document =
      some (.ofText (d.inserted (s.syncRegisters.pasteEdits d below)))) fun _ _ => False :=
  (ends_paste pl below hdoc hreadonly).mono (fun _ _ h => h ▸
    State.document_pasted pl below (by simpa using hdoc)) fun _ _ h => h

/-! ### Entries of whole lines -/

namespace RegisterEntry

variable {es : List RegisterEntry}

/-- Bodies with a line feed in front of each. -/
theorem flatMap_body (h : ∀ e ∈ es, e.IsLines) :
    es.flatMap (fun e => '\n' :: e.body) ++ ['\n'] = '\n' :: ended (es.flatMap (·.lines)) := by
  induction es with
  | nil => rfl
  | cons e es ih =>
    obtain ⟨he, h⟩ := List.forall_mem_cons.1 h
    rw [List.flatMap_cons, List.flatMap_cons, List.append_assoc, ih h, ended_append,
      he.ended_lines, List.append_assoc]
    rfl

theorem flatMap_text (h : ∀ e ∈ es, e.IsLines) :
    es.flatMap (·.text) = ended (es.flatMap (·.lines)) := by
  induction es with
  | nil => rfl
  | cons e es ih =>
    obtain ⟨he, h⟩ := List.forall_mem_cons.1 h
    rw [List.flatMap_cons, List.flatMap_cons, ih h, ended_append, he.ended_lines, he.text_eq]

end RegisterEntry

theorem filter_eq_singleton {α β : Type} [DecidableEq β] {f : α → β} {l : List α}
    (h : (l.map f).Nodup) {a : α} (ha : a ∈ l) : l.filter (fun x => f x == f a) = [a] := by
  induction l with
  | nil => cases ha
  | cons b l ih =>
    obtain ⟨hb, hnodup⟩ := List.nodup_cons.1 h
    rcases List.mem_cons.1 ha with rfl | ha
    · have hrest : l.filter (fun x => f x == f a) = [] := by
        refine List.filter_eq_nil_iff.2 fun x hx heq => hb ?_
        rw [← beq_iff_eq.1 heq]
        exact List.mem_map_of_mem hx
      rw [List.filter_cons, if_pos (beq_self_eq_true _), hrest]
    · have hne : ¬ (f b == f a) = true := fun heq => hb <| by
        rw [beq_iff_eq.1 heq]
        exact List.mem_map_of_mem ha
      rw [List.filter_cons, if_neg hne, ih hnodup ha]

namespace State

/-- The line of the document on which a cursor is. -/
def lineOf (d : Document) (sel : Selection) : Nat := (d.clamp sel.active).line

/-- The entries that a paste brings to a line: those of the cursors on it. -/
def entriesOn (s : State) (d : Document) (i : Nat) : List RegisterEntry :=
  (s.selections.filter fun sel => lineOf d sel == i).filterMap
    (s.session.registers.entryFor s.selections)

/-- The lines that a paste brings to a line. -/
def linesOn (s : State) (d : Document) (i : Nat) : List Text :=
  (s.entriesOn d i).flatMap (·.lines)

/-- Where a cursor rests on the first of the lines that a paste brings to its line. -/
def firstPasted (s : State) (pl : Placement) (d after : Document) (below : Bool) (sel : Selection) :
    Position :=
  let i := d.splicedFirst below (s.linesOn d) (lineOf d sel)
  pl.clamp after ⟨i, after.firstNonBlank i⟩

/-- What a paste of whole lines at the cursors leaves. Every cursor has the entry with its rank, or
all entries in one. After each line or before it come the lines of the entries of the cursors on it,
and each cursor rests on the first line of its own entry. An empty register leaves everything as it
was. -/
def PastesLines (s : State) (pl : Placement) (d : Document) (below : Bool) (s' : State) : Prop :=
  s.pasteEntries = s.selections.filterMap (s.session.registers.entryFor s.selections) ∧
    ∃ after, s'.editor.document = some after ∧ after.LineFeedsOnly ∧
      after.contents = d.spliced below (s.linesOn d) d.lineCount ∧
      s'.selections = s.selections.map fun sel =>
        if s.session.registers.entries = [] then sel
        else .cursor (s.firstPasted pl d after below sel)

/-- There are only cursors, no two on one line, and only whole lines in the registers. -/
structure BringsLines (s : State) (d : Document) : Prop where
  /-- Line feeds are the only breaks of the document. -/
  lineFeedsOnly : d.LineFeedsOnly
  /-- The selections are cursors. -/
  cursors : ∀ sel ∈ s.selections, sel.isEmpty
  /-- They are on different lines. -/
  apart : (s.selections.map (lineOf d)).Nodup
  /-- The entries are whole lines. -/
  entries : ∀ e ∈ s.session.registers.entries, e.IsLines

theorem lineOf_le (d : Document) (sel : Selection) : lineOf d sel ≤ d.lastLine :=
  (d.inBounds_clamp sel.active).line_le

/-- The place and the text of a paste of whole lines. -/
theorem pasteEdit_of_isLines (d : Document) (below : Bool) (sel : Selection) {e : RegisterEntry}
    (he : e.IsLines) :
    pasteEdit d below sel e = .insert (d.splicePlace below (lineOf d sel))
      (if below then '\n' :: e.body else e.text) := by
  obtain ⟨t, rfl, -⟩ := he
  cases below <;> rfl

/-- The entries for a line. -/
theorem entriesOn_eq (hentry : ∀ sel ∈ s.selections,
      s.session.registers.entryFor s.selections sel = some (entry sel)) (i : Nat) :
    s.entriesOn d i = (s.selections.filter fun sel => lineOf d sel == i).map entry := by
  rw [entriesOn, List.filterMap_congr fun sel hsel => hentry sel (List.mem_filter.1 hsel).1,
    List.filterMap_eq_map']

namespace BringsLines

variable (h : s.BringsLines d)
include h

/-- Cursors on different lines begin at different places. -/
theorem start_ne : s.selections.Pairwise fun a b => a.start ≠ b.start := by
  refine (List.pairwise_map.1 h.apart).imp_of_mem fun {a b} ha hb hne hstart => hne ?_
  rw [Selection.start_of_isEmpty (h.cursors a ha),
    Selection.start_of_isEmpty (h.cursors b hb)] at hstart
  rw [lineOf, lineOf, hstart]

theorem isLines_of_mem {i : Nat} {e : RegisterEntry} (he : e ∈ s.entriesOn d i) : e.IsLines := by
  obtain ⟨sel, -, he⟩ := List.mem_filterMap.1 he
  exact Registers.isLines_of_entryFor h.entries he

/-- A line with a cursor on it gets the lines of the entry of this cursor. -/
theorem linesOn_eq {sel : Selection} (hsel : sel ∈ s.selections) {e : RegisterEntry}
    (he : s.session.registers.entryFor s.selections sel = some e) :
    s.linesOn d (lineOf d sel) = e.lines := by
  rw [linesOn, entriesOn, filter_eq_singleton h.apart hsel, List.filterMap_cons_some he,
    List.filterMap_nil, List.flatMap_singleton]

theorem linesOn_ne_nil (hne : s.session.registers.entries ≠ []) {sel : Selection}
    (hsel : sel ∈ s.selections) : s.linesOn d (lineOf d sel) ≠ [] := by
  obtain ⟨entry, hentry⟩ := Registers.exists_entryFor hne s.selections
  rw [h.linesOn_eq hsel (hentry sel hsel)]
  exact RegisterEntry.lines_ne_nil _

/-- The edits put the entries in at the lines of their cursors. -/
theorem pasteEdits_eq (hne : s.session.registers.entries ≠ [])
    (hentry : ∀ sel ∈ s.selections,
      s.session.registers.entryFor s.selections sel = some (entry sel)) (below : Bool) :
    s.pasteEdits d below = s.selections.map fun sel =>
      .insert (d.splicePlace below (lineOf d sel))
        (if below then '\n' :: (entry sel).body else (entry sel).text) := by
  rw [pasteEdits_of_entryFor hne h.start_ne hentry]
  exact List.map_congr_left fun sel hsel => pasteEdit_of_isLines d below sel
    (Registers.isLines_of_entryFor h.entries (hentry sel hsel))

/-- **A paste of whole lines brings the lines of its entries** to the lines of the cursors. -/
theorem splices (below : Bool) :
    d.Splices below (s.linesOn d) (d.insertedAt (s.pasteEdits d below)) := by
  have hline : ∀ sel ∈ s.selections, lineOf d sel ≤ d.lastLine := fun sel _ => lineOf_le d sel
  by_cases hne : s.session.registers.entries = []
  · -- Empty registers make no edits and have no entry for a cursor.
    have hedits : s.pasteEdits d below = [] := by
      rw [pasteEdits, pasteEntries_of_empty hne, List.zipWith_nil_right]
    have hlines : s.linesOn d = fun _ => [] := by
      funext i
      rw [linesOn, entriesOn,
        List.filterMap_eq_nil_iff.2 fun sel _ => Registers.entryFor_of_empty hne sel,
        List.flatMap_nil]
    rw [hedits, hlines]
    exact Document.splices_of_no_places below
  · obtain ⟨entry, hentry⟩ := Registers.exists_entryFor hne s.selections
    rw [h.pasteEdits_eq hne hentry]
    refine Document.splices_of_places _ h.lineFeedsOnly hline fun i _ => ?_
    have hlines : ∀ e ∈ s.entriesOn d i, e.IsLines := fun _ => h.isLines_of_mem
    rw [linesOn]
    rw [entriesOn_eq hentry] at hlines ⊢
    cases below with
    | true =>
      have hbodies := RegisterEntry.flatMap_body hlines
      rw [List.flatMap_map] at hbodies
      exact hbodies
    | false =>
      have htexts := RegisterEntry.flatMap_text hlines
      rw [List.flatMap_map] at htexts
      exact (List.append_nil _).trans htexts

/-- **The lines after whole lines have been pasted.** -/
theorem contents_pasted (below : Bool) :
    let after := Document.ofText (d.inserted (s.pasteEdits d below))
    after.LineFeedsOnly ∧ after.contents = d.spliced below (s.linesOn d) d.lineCount := by
  refine (h.splices below).contents_inserted h.lineFeedsOnly fun i l hl => ?_
  obtain ⟨e, he, hl⟩ := List.mem_flatMap.1 hl
  exact (h.isLines_of_mem he).isLine l hl

/-- No two entries are put in at one place. -/
theorem nodup_offsets (hne : s.session.registers.entries ≠ []) (below : Bool) :
    ((s.pasteEdits d below).map fun e => d.offsetOf e.range.start).Nodup := by
  obtain ⟨entry, hentry⟩ := Registers.exists_entryFor hne s.selections
  rw [h.pasteEdits_eq hne hentry]
  exact Document.nodup_splicePlaces _ h.lineFeedsOnly (fun sel _ => lineOf_le d sel) h.apart

variable {after : Document}

/-- Where one cursor goes. -/
theorem pastedTo_eq (hafter : after.LineFeedsOnly)
    (hcontents : after.contents = d.spliced below (s.linesOn d) d.lineCount)
    (hne : s.session.registers.entries ≠ []) (pl : Placement) {sel : Selection}
    (hsel : sel ∈ s.selections) {e : RegisterEntry} (he : e.IsLines) (stop : Nat) :
    pastedTo pl after below e (weaveTo (d.insertedAt (s.pasteEdits d below)) 0
        (d.text.take (d.offsetOf (d.splicePlace below (lineOf d sel))))).length stop =
      s.firstPasted pl d after below sel := by
  have hposition := (h.splices below).positionAt_first h.lineFeedsOnly hafter hcontents
    (lineOf_le d sel) (h.linesOn_ne_nil hne hsel)
  rw [pastedTo, if_pos he.linewise, hposition]
  rfl

/-- **The cursors after whole lines have been pasted.** -/
theorem pasteCursors_eq (hafter : after.LineFeedsOnly)
    (hcontents : after.contents = d.spliced below (s.linesOn d) d.lineCount)
    (hne : s.session.registers.entries ≠ []) (pl : Placement) :
    s.pasteCursors pl d after below = s.selections.map (s.firstPasted pl d after below) := by
  obtain ⟨entry, hentry⟩ := Registers.exists_entryFor hne s.selections
  let plan : Plan := ⟨d.inOrder (s.pasteEdits d below)⟩
  -- A cursor has the same number as its edit, by which the plan finds what it pastes.
  have hcursor : ∀ i sel, s.selections[i]? = some sel → (do
      let start ← plan.startOf? i
      let stop ← plan.endOf? i
      return pastedTo pl after below (entry sel) start stop) =
        some (s.firstPasted pl d after below sel) := by
    intro i sel hsel
    have hmem := List.mem_of_getElem? hsel
    have hget : (s.pasteEdits d below)[i]? = some (.insert (d.splicePlace below (lineOf d sel))
        (if below then '\n' :: (entry sel).body else (entry sel).text)) := by
      rw [h.pasteEdits_eq hne hentry, List.getElem?_map, hsel]
      rfl
    have hstart := Document.startOf?_of_insertions (fun _ => inserts_pasteEdits)
      (h.nodup_offsets hne below) hget
    have hstop := Document.endOf?_of_plan
      (Document.plan_of_insertions fun _ => inserts_pasteEdits) hget
    rw [hstart] at hstop
    rw [hstart, hstop]
    exact congrArg some (h.pastedTo_eq hafter hcontents hne pl hmem
      (Registers.isLines_of_entryFor h.entries (hentry sel hmem)) _)
  rw [pasteCursors, pasteEntries_of_entryFor hne h.start_ne hentry, List.zipIdx_map,
    List.filterMap_map]
  exact filterMap_zipIdx_eq_map hcursor

/-- The cursors rest on different lines again. -/
theorem nodup_firstPasted
    (hcontents : after.contents = d.spliced below (s.linesOn d) d.lineCount)
    (hne : s.session.registers.entries ≠ []) (pl : Placement) :
    (s.selections.map (s.firstPasted pl d after below)).Nodup := by
  have hline : ∀ sel ∈ s.selections, (s.firstPasted pl d after below sel).line =
      d.splicedFirst below (s.linesOn d) (lineOf d sel) := by
    intro sel hsel
    have hle := Document.splicedFirst_le hcontents (lineOf_le d sel) (h.linesOn_ne_nil hne hsel)
    exact Nat.min_eq_left hle
  have hfirst := h.apart.map (Document.strictMono_splicedFirst d below (s.linesOn d)).injective
  rw [List.map_map] at hfirst
  refine List.Nodup.of_map Position.line ?_
  rwa [List.map_map, List.map_congr_left (f := _ ∘ _) hline]

/-- **Where a paste of whole lines leaves the cursors.** -/
theorem selections_pasted (pl : Placement) (below : Bool) :
    let after := Document.ofText (d.inserted (s.pasteEdits d below))
    (s.pasted pl d below).selections = s.selections.map fun sel =>
      if s.session.registers.entries = [] then sel
      else .cursor (s.firstPasted pl d after below sel) := by
  intro after
  obtain ⟨hafter, hcontents⟩ := h.contents_pasted below
  by_cases hne : s.session.registers.entries = []
  · simp only [pasted, pasteEntries_of_empty hne, List.isEmpty_nil, hne, ↓reduceIte, List.map_id']
  · have hcursors := h.pasteCursors_eq hafter hcontents hne pl
    simp only [hne, ↓reduceIte]
    unfold pasted
    split
    · -- The registers are not empty, so there are no cursors.
      rename_i hnone
      rw [pasteCursors, List.isEmpty_iff.1 hnone] at hcursors
      rw [List.map_eq_nil_iff.1 hcursors.symm, List.map_nil]
    · rw [selections_setCursors, hcursors,
        eraseDups_eq_self (h.nodup_firstPasted hcontents hne pl), List.map_map]
      rfl

end BringsLines

end State

/-- **A paste of whole lines at cursors on different lines** puts the lines of each entry right
after or right before the line of its cursor. -/
theorem Step.ends_paste_lines (pl : Placement) (below : Bool) (hdoc : s.editor.document = some d)
    (hreadonly : s.editor.readonly = false) (h : s.syncRegisters.BringsLines d) :
    (Step.paste pl d below).Ends s (fun _ s' => s.syncRegisters.PastesLines pl d below s')
      fun _ _ => False := by
  obtain ⟨hafter, hcontents⟩ := h.contents_pasted below
  refine (ends_paste pl below hdoc hreadonly).mono (fun _ s' hs' => ?_) fun _ _ hfailed => hfailed
  rw [hs']
  exact ⟨State.pasteEntries_eq h.start_ne, _, State.document_pasted pl below (by simpa using hdoc),
    hafter, hcontents, h.selections_pasted pl below⟩

end ModalEdit
