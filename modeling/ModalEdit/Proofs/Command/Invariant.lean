import ModalEdit.Proofs.Command.Batch

/-!
# What commands lead to

Every command, from a sound state in a mode in which it is offered, leads to a sound state by its
batch of edits, and fails only if the editor refuses (`Command.leads`). The operators and typing do
so too.
-/

namespace ModalEdit

variable {rule : CursorRule} {s : State} {d : Document}

/-! ### Placements -/

namespace Placement

theorem inBounds_clamp (pl : Placement) (p : Position) : d.InBounds (pl.clamp d p) := by
  have h := d.inBounds_clamp p
  refine ⟨h.1, ?_⟩
  have := h.2
  simp only [clamp]
  omega

theorem inBounds_afterInsert (pl : Placement) (p : Position) :
    d.InBounds (pl.afterInsert d p) := by
  have h := d.inBounds_clamp p
  cases pl with
  | gap => exact h
  | onChar => exact ⟨h.1, Nat.le_trans (Nat.sub_le _ _) h.2⟩

end Placement

theorem InsertPlace.inBounds_of (place : InsertPlace) {p : Position} (h : d.InBounds p) :
    d.InBounds (place.of d p) := by
  cases place with
  | before => exact h
  | after => exact ⟨h.1, Nat.min_le_right _ _⟩
  | lineStart => exact Document.inBounds_firstNonBlank h.1
  | lineEnd => exact Document.inBounds_lineEnd h.1

/-! ### Cursors behind a batch -/

theorem filterMap_ne_nil {α β : Type} {f : α → Option β} {l : List α} {a : α} (ha : a ∈ l)
    (hf : (f a).isSome) : l.filterMap f ≠ [] := by
  obtain ⟨b, hb⟩ := Option.isSome_iff_exists.1 hf
  exact List.ne_nil_of_mem (List.mem_filterMap.2 ⟨a, ha, hb⟩)

/-- The first edit of a batch has its place in the new text. -/
theorem Document.exists_first_of_edit {edits : List Edit} {after : Document} {plan : Plan}
    (h : d.edit edits = .ok (after, plan)) (hpos : 0 < edits.length) :
    ∃ start stop, plan.startOf? 0 = some start ∧ plan.endOf? 0 = some stop := by
  have hplan := (edit_eq_ok_iff.1 h).1
  obtain ⟨start, hstart⟩ := Option.isSome_iff_exists.1 (isSome_startOf?_of_plan hplan hpos)
  obtain ⟨stop, hstop⟩ := Option.isSome_iff_exists.1 (isSome_endOf?_of_plan hplan hpos)
  exact ⟨start, stop, hstart, hstop⟩

/-- A batch whose edits lead to no cursors is empty. -/
theorem Document.eq_nil_of_no_cursors {edits : List Edit} {after : Document} {plan : Plan}
    {cursor : Nat → Position} (h : d.edit edits = .ok (after, plan))
    (hnil : (List.range edits.length).filterMap (fun i => (plan.startOf? i).map cursor) = []) :
    edits = [] := by
  refine List.length_eq_zero_iff.1 (Nat.eq_zero_of_not_pos fun hpos => ?_)
  obtain ⟨start, stop, hstart, -⟩ := exists_first_of_edit h hpos
  refine filterMap_ne_nil (List.mem_range.2 hpos) ?_ hnil
  simp [hstart]

/-- The first member of a list that is not empty comes with the number zero. -/
theorem exists_mem_zipIdx {α : Type} {l : List α} (h : 0 < l.length) : ∃ a, (a, 0) ∈ l.zipIdx := by
  cases l with
  | nil => exact absurd h (Nat.lt_irrefl 0)
  | cons a l => exact ⟨a, by simp⟩

/-- A command leads to cursors in bounds of the text that its batch has left. -/
theorem State.Leads.of_cursors {s' : State} {edits : List Edit} {after : Document} {plan : Plan}
    {ps : List Position} (hedit : d.edit edits = .ok (after, plan))
    (hdoc : s'.editor.document = some after) (hsels : s'.selections = ps.eraseDups.map .cursor)
    (hmode : s'.mode.isVisual = false) (haccess : s'.access = s.access) (hne : ps ≠ [])
    (hps : ∀ p ∈ ps, after.InBounds p) (hlen : ps.length ≤ s.selections.length) :
    s.Leads rule d edits s' where
  sound := ⟨after, plan, hedit, sound_of_inBounds hdoc hsels hmode hne hps⟩
  length_le := by
    rw [hsels]
    exact length_setCursors_le hlen
  access := haccess

/-- The cursors are what some of the edits of the batch are mapped to. -/
theorem State.Leads.of_filterMap {α : Type} {s' : State} {edits : List Edit} {after : Document}
    {plan : Plan} {l : List α} {f : α → Option Position}
    (hedit : d.edit edits = .ok (after, plan)) (hdoc : s'.editor.document = some after)
    (hsels : s'.selections = (l.filterMap f).eraseDups.map .cursor)
    (hmode : s'.mode.isVisual = false) (haccess : s'.access = s.access)
    (hne : l.filterMap f ≠ []) (hps : ∀ a p, f a = some p → after.InBounds p)
    (hlen : l.length ≤ s.selections.length) : s.Leads rule d edits s' := by
  refine .of_cursors hedit hdoc hsels hmode haccess hne ?_ ?_
  · intro p hp
    obtain ⟨a, -, hp⟩ := List.mem_filterMap.1 hp
    exact hps a p hp
  · exact Nat.le_trans (List.length_filterMap_le _ _) hlen

theorem State.Leads.of_moved {s' : State} {ps : List Position} (hs : s.Sound rule d)
    (hdoc : s'.editor.document = s.editor.document)
    (hsels : s'.selections = ps.eraseDups.map .cursor) (hmode : s'.mode.isVisual = false)
    (haccess : s'.access = s.access) (hne : ps ≠ []) (hps : ∀ p ∈ ps, d.InBounds p)
    (hlen : ps.length ≤ s.selections.length) : s.Leads rule d [] s' :=
  .of_cursors d.edit_nil (hdoc.trans hs.document) hsels hmode haccess hne hps hlen

namespace Step

theorem openLine_leads (hs : s.Sound rule d) (below : Bool) :
    (openLine d below).Ends s (fun _ => s.Leads rule d (s.openLineEdits d below))
      fun _ _ => s.Refuses := by
  simp only [openLine, ends_bind, ends_get, ends_modify]
  refine ends_commit_of_fits hs.document (fun e => State.fits_openLineEdits)
    (State.length_openLineEdits_le below) fun after plan hedit => ?_
  have hpos : 0 < (s.openLineEdits d below).length := by
    simpa [State.openLineEdits] using List.length_pos_iff.2 (State.cursorLines_ne_nil hs)
  -- The first line opened has a place in the new text, so that there is a cursor.
  obtain ⟨start, stop, hstart, hstop⟩ := Document.exists_first_of_edit hedit hpos
  obtain ⟨e, he⟩ := exists_mem_zipIdx hpos
  refine .of_filterMap hedit rfl rfl rfl rfl (filterMap_ne_nil he ?_) ?_ ?_
  · cases below <;> simp [hstop, hstart]
  · rintro ⟨e, i⟩ p hp
    cases below <;>
    · obtain ⟨o, -, hp⟩ := Option.bind_eq_some_iff.1 hp
      cases hp
      exact after.inBounds_positionAt _
  · rw [List.length_zipIdx]
    exact State.length_openLineEdits_le below

/-- A batch that is empty leaves the state as it was. -/
theorem leads_edited {edits : List Edit} {after : Document} {plan : Plan} (hs : s.Sound rule d)
    (hedit : d.edit edits = .ok (after, plan)) (hnil : edits = []) :
    s.Leads rule d edits (s.edited after) := by
  subst hnil
  rw [d.edit_nil] at hedit
  cases hedit
  rw [s.edited_of_document hs.document]
  exact .refl hs

theorem replaceChar_leads (hs : s.Sound rule d) (hmode : s.mode.isVisual = false)
    (key : Option Key) :
    (replaceChar d key).Ends s
      (fun _ => s.Leads rule d (((Key.replacement? key).map (s.replaceCharEdits d)).getD []))
      fun _ _ => s.Refuses := by
  unfold replaceChar
  cases Key.replacement? key with
  | none => exact .refl hs
  | some text =>
    simp only [ends_bind, ends_get, Option.map_some, Option.getD_some]
    refine ends_commit_of_fits hs.document (fun e => State.fits_replaceCharEdits)
      (State.length_replaceCharEdits_le text) fun after plan hedit => ?_
    split
    · rename_i hne
      have hpos := List.length_pos_iff.2 (List.isEmpty_eq_false_iff.1 (Bool.eq_false_iff.2 hne))
      obtain ⟨start, stop, hstart, hstop⟩ := Document.exists_first_of_edit hedit hpos
      have hfirst := List.mem_range.2 hpos
      refine .of_filterMap hedit rfl rfl hmode rfl (filterMap_ne_nil hfirst ?_) ?_ ?_
      · split <;> simp [hstart, hstop]
      · intro i p hp
        obtain ⟨o, -, rfl⟩ := Option.map_eq_some_iff.1 hp
        exact after.inBounds_positionAt o
      · rw [List.length_range]
        exact State.length_replaceCharEdits_le text
    · rename_i hnil
      exact leads_edited hs hedit (by simpa using hnil)

theorem joinLines_leads (hs : s.Sound rule d) (hmode : s.mode.isVisual = false)
    (settings : Settings) :
    (joinLines settings d).Ends s (fun _ => s.Leads rule d (s.joinLinesEdits settings d))
      fun _ _ => s.Refuses := by
  simp only [joinLines, ends_bind, ends_get]
  refine ends_commit_of_fits hs.document (fun e => State.fits_joinLinesEdits)
    (State.length_joinLinesEdits_le settings) fun after plan hedit => ?_
  split
  · rename_i hne
    refine .of_filterMap hedit rfl rfl hmode rfl (by simpa using hne) ?_ ?_
    · intro i p hp
      obtain ⟨o, -, rfl⟩ := Option.map_eq_some_iff.1 hp
      exact settings.placement.inBounds_clamp _
    · rw [List.length_range]
      exact State.length_joinLinesEdits_le settings
  · rename_i hnil
    exact leads_edited hs hedit (Document.eq_nil_of_no_cursors hedit
      (List.isEmpty_iff.1 (Decidable.not_not.1 hnil)))

theorem collapse_leads (hs : s.Sound rule d) (pl : Placement) :
    s.Leads rule d [] (s.collapse pl d) := by
  refine .of_moved hs rfl rfl rfl rfl (by simpa using hs.ne_nil) ?_ (by simp)
  intro p hp
  obtain ⟨sel, -, rfl⟩ := List.mem_map.1 hp
  exact pl.inBounds_clamp _

theorem inBounds_pastedTo (pl : Placement) {after : Bool} {e : RegisterEntry} {start stop : Nat} :
    d.InBounds (pastedTo pl d after e start stop) := by
  unfold pastedTo
  dsimp only
  split <;> exact pl.inBounds_clamp _

theorem inBounds_replacedTo (pl : Placement) {edit : Edit} {e : RegisterEntry} {start : Nat} :
    d.InBounds (replacedTo pl d edit e start) := by
  simp only [replacedTo]
  split <;> exact pl.inBounds_clamp _

/-- What a command leads to after the clipboard has been adopted, it leads to from the start. -/
theorem ends_syncRegisters {m : Step Unit} {edits : List Edit}
    (h : m.Ends s.syncRegisters (fun _ => s.syncRegisters.Leads rule d edits)
      fun _ _ => s.syncRegisters.Refuses) :
    m.Ends s.syncRegisters (fun _ => s.Leads rule d edits) fun _ _ => s.Refuses := by
  refine h.mono (fun _ s' h => ⟨h.sound, ?_, ?_⟩) fun _ _ h => ?_
  · simpa using h.length_le
  · simpa using h.access
  · simpa [State.Refuses] using h

theorem paste_leads (hs : s.Sound rule d) (hmode : s.mode.isVisual = false) (pl : Placement)
    (after : Bool) :
    (paste pl d after).Ends s (fun _ => s.Leads rule d (s.syncRegisters.pasteEdits d after))
      fun _ _ => s.Refuses := by
  rw [paste, ends_bind, ends_modify]
  -- From here on the registers do not matter: any sound state will do.
  refine ends_syncRegisters ?_
  replace hs : s.syncRegisters.Sound rule d := hs.congr (by simp) (by simp) (by simp)
  replace hmode : s.syncRegisters.mode.isVisual = false := by simpa using hmode
  generalize s.syncRegisters = s at hs hmode
  have hlen := State.length_pasteEdits (d := d) (s := s) after
  have hle := State.length_pasteEntries_le (s := s)
  simp only [ends_bind, ends_get]
  split
  · rename_i hnil
    rw [List.isEmpty_iff.1 hnil, List.length_nil, List.length_eq_zero_iff] at hlen
    rw [hlen]
    exact .refl hs
  · rename_i hne
    have hne := List.isEmpty_eq_false_iff.1 (Bool.eq_false_iff.2 hne)
    simp only [ends_bind, ends_modify]
    refine ends_commit_of_fits hs.document (fun e => State.fits_pasteEdits)
      (hlen ▸ hle) fun d' plan hedit => ?_
    have hpos := List.length_pos_iff.2 hne
    obtain ⟨start, stop, hstart, hstop⟩ := Document.exists_first_of_edit hedit (hlen ▸ hpos)
    obtain ⟨e, he⟩ := exists_mem_zipIdx hpos
    refine .of_filterMap hedit rfl rfl hmode rfl (filterMap_ne_nil he ?_) ?_ ?_
    · simp [hstart, hstop]
    · rintro ⟨e, i⟩ p hp
      obtain ⟨start, -, hp⟩ := Option.bind_eq_some_iff.1 hp
      obtain ⟨stop, -, hp⟩ := Option.bind_eq_some_iff.1 hp
      cases hp
      exact inBounds_pastedTo pl
    · rwa [List.length_zipIdx]

theorem pasteOver_leads (hs : s.Sound rule d) (hmode : s.mode.isVisual = true) (pl : Placement)
    (storeReplaced : Bool) :
    (pasteOver pl d storeReplaced).Ends s
      (fun _ => s.Leads rule d (s.syncRegisters.pasteOverEdits d)) fun _ _ => s.Refuses := by
  rw [pasteOver, ends_bind, ends_modify]
  refine ends_syncRegisters ?_
  replace hs : s.syncRegisters.Sound rule d := hs.congr (by simp) (by simp) (by simp)
  replace hmode : s.syncRegisters.mode ≠ .normal := fun h => by
    rw [State.mode_syncRegisters] at h
    simp [h, Mode.isVisual] at hmode
  generalize s.syncRegisters = s at hs hmode
  have hlen := State.length_pasteOverEdits (d := d) (s := s)
  have hle := State.length_pasteEntries_le (s := s)
  simp only [ends_bind, ends_get]
  split
  · rename_i hnil
    rw [List.isEmpty_iff.1 hnil, List.length_nil, List.length_eq_zero_iff] at hlen
    rw [hlen]
    exact collapse_leads hs pl
  · rename_i hne
    have hne := List.isEmpty_eq_false_iff.1 (Bool.eq_false_iff.2 hne)
    simp only [ends_bind]
    refine ends_commit_of_fits hs.document
      (fun e => State.fits_pasteOverEdits fun sel hsel => hs.holds hmode hsel)
      (hlen ▸ hle) fun d' plan hedit => ?_
    have hpos : 0 < ((s.pasteOverEdits d).zip s.pasteEntries).length := by
      rw [List.length_zip, hlen, Nat.min_self]
      exact List.length_pos_iff.2 hne
    obtain ⟨start, stop, hstart, -⟩ := Document.exists_first_of_edit hedit
      (hlen ▸ List.length_pos_iff.2 hne)
    obtain ⟨e, he⟩ := exists_mem_zipIdx hpos
    -- Storing what was replaced makes no difference to the cursors.
    let place (x : (Edit × RegisterEntry) × Nat) : Option Position := do
      let start ← plan.startOf? x.2
      return replacedTo pl d' x.1.1 x.1.2 start
    have hleads {t : State} (hdoc : t.editor.document = some d') (haccess : t.access = s.access) :
        s.Leads rule d (s.pasteOverEdits d) ((t.setCursors
          (((s.pasteOverEdits d).zip s.pasteEntries).zipIdx.filterMap place)).setMode .normal) := by
      refine .of_filterMap hedit hdoc rfl rfl haccess (filterMap_ne_nil he ?_) ?_ ?_
      · simp [place, hstart]
      · rintro ⟨⟨edit, e⟩, i⟩ p hp
        obtain ⟨start, -, hp⟩ := Option.bind_eq_some_iff.1 hp
        cases hp
        exact inBounds_replacedTo pl
      · rw [List.length_zipIdx, List.length_zip, hlen, Nat.min_self]
        exact hle
    split
    · exact hleads (by simp) (by simp)
    · exact hleads rfl rfl

/-! ### Typing and operators -/

theorem length_typedTo (d after : Document) (plan : Plan) (k : Nat)
    (typings : List (Selection × Option Edit)) :
    (typedTo d after plan k typings).length = typings.length := by
  fun_induction typedTo d after plan k typings with
  | case1 => rfl
  | case2 k sel e rest ih => simp [ih]
  | case3 k sel rest ih => simp [ih]

theorem inBounds_of_mem_typedTo {after : Document} {plan : Plan} {k : Nat}
    {typings : List (Selection × Option Edit)} {p : Position}
    (h : p ∈ typedTo d after plan k typings) : after.InBounds p := by
  fun_induction typedTo d after plan k typings with
  | case1 => simp at h
  | case2 k sel e rest ih =>
    rcases List.mem_cons.1 h with rfl | h
    · exact after.inBounds_positionAt _
    · exact ih h
  | case3 k sel rest ih =>
    rcases List.mem_cons.1 h with rfl | h
    · exact after.inBounds_positionAt _
    · exact ih h

theorem type_leads (hs : s.Sound rule d) (hmode : s.mode = .insert) (t : Typed) :
    (type d t).Ends s (fun _ => s.Leads rule d (s.typeEdits d t)) fun _ _ => s.Refuses := by
  simp only [type, ends_bind, ends_get, ends_modify]
  refine ends_commit_of_fits hs.document
    (fun e => State.fits_typeEdits fun sel hsel => hs.holds (by simp [hmode]) hsel)
    (State.length_typeEdits_le t) fun after plan hedit => ?_
  refine State.Leads.of_cursors hedit rfl rfl (by simp [hmode, Mode.isVisual]) rfl ?_
    (fun p => inBounds_of_mem_typedTo) ?_
  · rw [← List.length_pos_iff, length_typedTo, State.typings, List.length_map]
    exact List.length_pos_iff.2 (eraseReps_ne_nil hs.ne_nil)
  · rw [length_typedTo]
    exact State.length_typings_le t

theorem inBounds_removedTo (kind : OperatorKind) (pl : Placement) {after : Document} {plan : Plan}
    {ofSelection : Bool} {t : Target} :
    after.InBounds (kind.removedTo pl d after plan ofSelection t) := by
  simp only [OperatorKind.removedTo]
  split
  · exact after.inBounds_positionAt _
  · split <;> exact pl.inBounds_clamp _

theorem apply_leads (hs : s.Sound rule d) (kind : OperatorKind) (pl : Placement)
    {targets : List Target} (hne : targets ≠ []) (hlen : targets.length ≤ s.selections.length)
    (hfits : ∀ r ∈ targets.filterMap (·.2), d.Fits r) (ofSelection : Bool) :
    (kind.apply pl d targets ofSelection).Ends s
      (fun _ => s.Leads rule d (kind.edits d (targets.filterMap (·.2)))) fun _ _ => s.Refuses := by
  unfold OperatorKind.apply OperatorKind.edits
  dsimp only
  split
  · -- Yanking edits nothing.
    refine .of_moved hs (by simp) rfl rfl (by simp) (by simpa using hne) ?_ (by simpa using hlen)
    intro p hp
    obtain ⟨t, -, rfl⟩ := List.mem_map.1 hp
    exact pl.inBounds_clamp _
  · rename_i hkind
    have hedits : kind.edits d (targets.filterMap (·.2)) =
        OperatorKind.deletions (d.mergeRanges (targets.filterMap (·.2))) := if_neg hkind
    rw [← hedits]
    simp only [ends_bind, ends_modify]
    refine ends_commit_of_fits hs.document (fun e => OperatorKind.fits_edits hfits) ?_
      fun after plan hedit => ?_
    · refine Nat.le_trans (OperatorKind.length_edits_le kind _) (Nat.le_trans ?_ hlen)
      exact List.length_filterMap_le _ _
    · refine .of_cursors hedit (by simp) rfl ?_ (by simp) (by simpa using hne) ?_
        (by simpa using hlen)
      · split <;> rfl
      · intro p hp
        obtain ⟨t, -, rfl⟩ := List.mem_map.1 hp
        exact inBounds_removedTo kind pl

end Step

/-! ### Commands -/

/-- A command leads to other selections if each of them looks as it does in its mode. -/
theorem State.Leads.of_selected {s' : State} {sels : List Selection} (hs : s.Sound rule d)
    (hdoc : s'.editor.document = s.editor.document) (hsels : s'.selections = sels)
    (hlen : sels.length = s.selections.length) (haccess : s'.access = s.access)
    (hmode : s'.mode.isVisual = true) (hsuits : ∀ sel ∈ sels, sel.Suits rule d s'.mode) :
    s.Leads rule d [] s' := by
  subst hsels
  refine .of_sound (sound_of_visual (hdoc.trans hs.document) hmode ?_ hsuits) (Nat.le_of_eq hlen)
    haccess
  have := hs.length_pos
  exact List.length_pos_iff.1 (by omega)

namespace State

variable (settings : Settings)

theorem escape_leads (hs : s.Sound rule d) : s.Leads rule d [] (s.escape settings d) := by
  unfold escape
  split
  · rename_i hmode
    -- In Normal mode only the first cursor stays.
    split
    · rename_i hnil
      exact absurd hnil hs.ne_nil
    · rename_i sel sels hsels
      refine .of_moved hs rfl rfl (by simp [hmode, Mode.isVisual]) rfl (List.cons_ne_nil _ _) ?_ ?_
      · simpa using settings.placement.inBounds_clamp sel.active
      · simp [hsels]
  · refine .of_moved hs rfl rfl rfl rfl (by simpa using cursorsIn_ne_nil hs) ?_ ?_
    · intro p hp
      obtain ⟨q, -, rfl⟩ := List.mem_map.1 hp
      exact settings.placement.inBounds_afterInsert q
    · simpa using length_cursorsIn_le
  · exact Step.collapse_leads hs _
  · exact Step.collapse_leads hs _

theorem enterInsert_leads (hs : s.Sound rule d) (place : InsertPlace) :
    s.Leads rule d [] (s.enterInsert d place) := by
  refine .of_moved hs rfl rfl rfl rfl (by simpa using cursorsIn_ne_nil hs) ?_ ?_
  · intro p hp
    obtain ⟨q, hq, rfl⟩ := List.mem_map.1 hp
    exact place.inBounds_of (inBounds_of_mem_cursorsIn hq)
  · simpa using length_cursorsIn_le

theorem toggleVisual_leads (hs : s.Sound rule d) :
    s.Leads rule d [] (s.toggleVisual settings d) := by
  have hchar {sel : Selection} :
      (d.covering (d.entryChar sel.active) (d.entryChar sel.active)).Suits rule d .visual :=
    Document.holds_covering (d.inBounds_entryChar _) (d.inBounds_entryChar _)
  unfold toggleVisual
  split
  · exact Step.collapse_leads hs _
  · rename_i hmode
    refine .of_selected hs rfl rfl (by simp) rfl rfl fun sel' hsel' => ?_
    obtain ⟨sel, hsel, rfl⟩ := List.mem_map.1 hsel'
    have hline := Document.lineEndpoints_lt (hs.holds (by simp [hmode]) hsel)
    exact Document.holds_covering (Document.inBounds_lineStart hline.1) (d.inBounds_clampChar _)
  · refine .of_selected hs rfl rfl (by simp) rfl rfl fun sel' hsel' => ?_
    obtain ⟨sel, hsel, rfl⟩ := List.mem_map.1 hsel'
    exact hchar
  · refine .of_selected hs rfl rfl (by simp) rfl rfl fun sel' hsel' => ?_
    obtain ⟨sel, hsel, rfl⟩ := List.mem_map.1 hsel'
    exact hchar

theorem toggleVisualLine_leads (hs : s.Sound rule d) :
    s.Leads rule d [] (s.toggleVisualLine settings d) := by
  have hline {sel : Selection} : (d.lineCovering (d.clamp sel.active).line
      (d.clamp sel.active).line).Suits rule d .visualLine :=
    ⟨_, _, d.clamp_line_lt _, d.clamp_line_lt _, rfl⟩
  unfold toggleVisualLine
  split
  · exact Step.collapse_leads hs _
  · rename_i hmode
    refine .of_selected hs rfl rfl (by simp) rfl rfl fun sel' hsel' => ?_
    obtain ⟨sel, hsel, rfl⟩ := List.mem_map.1 hsel'
    have hchars := Document.inBounds_charEndpoints (hs.holds (by simp [hmode]) hsel)
    exact ⟨_, _, hchars.1.1, hchars.2.1, rfl⟩
  · refine .of_selected hs rfl rfl (by simp) rfl rfl fun sel' hsel' => ?_
    obtain ⟨sel, hsel, rfl⟩ := List.mem_map.1 hsel'
    exact hline
  · refine .of_selected hs rfl rfl (by simp) rfl rfl fun sel' hsel' => ?_
    obtain ⟨sel, hsel, rfl⟩ := List.mem_map.1 hsel'
    exact hline

/-- Selections that are made from their old ends look right in the same visual mode. -/
theorem suits_of_visual (hmode : s.mode.isVisual = true) {sel : Selection}
    (hchars : s.mode = .visual → d.Holds sel) (hlines : s.mode = .visualLine → d.CoversLines sel) :
    sel.Suits rule d s.mode := by
  cases h : s.mode with
  | normal => simp [h, Mode.isVisual] at hmode
  | insert => simp [h, Mode.isVisual] at hmode
  | visual => exact hchars h
  | visualLine => exact hlines h

theorem Sound.holds_of_visual (hs : s.Sound rule d) (hmode : s.mode.isVisual = true)
    {sel : Selection} (hsel : sel ∈ s.selections) : d.Holds sel :=
  hs.holds (fun h => by simp [h, Mode.isVisual] at hmode) hsel

theorem swapEnds_leads (hs : s.Sound rule d) (hmode : s.mode.isVisual = true) :
    s.Leads rule d [] (s.swapEnds d) := by
  refine .of_selected hs rfl rfl (by simp [swapEnds]) rfl hmode fun sel' hsel' => ?_
  obtain ⟨sel, hsel, rfl⟩ := List.mem_map.1 hsel'
  have hsel := hs.holds_of_visual hmode hsel
  refine suits_of_visual hmode (fun h => ?_) fun h => ?_
  · simp only [h, reduceCtorEq, ↓reduceIte]
    have hchars := Document.inBounds_charEndpoints hsel
    exact Document.holds_covering hchars.2 hchars.1
  · simp only [h, ↓reduceIte]
    have hlines := Document.lineEndpoints_lt hsel
    exact ⟨_, _, hlines.2, hlines.1, rfl⟩

end State

namespace ModeSet

variable {m : Mode}

theorem isVisual_of_anyVisual (h : anyVisual.has m) : m.isVisual = true := by
  cases m <;> simp [anyVisual, has, Mode.isVisual] at h ⊢

theorem isVisual_of_onlyNormal (h : onlyNormal.has m) : m.isVisual = false := by
  cases m <;> simp [onlyNormal, has, Mode.isVisual] at h ⊢

end ModeSet

namespace Command

/-- The modes for which a command is made. -/
def home : Command → ModeSet
  | escape => .all
  | insert _ | openLine _ | replaceChar | joinLines | paste _ => .onlyNormal
  | toggleVisual | toggleVisualLine => .normalAndVisual
  | swapEnds | pasteOver _ => .anyVisual

/-- In a mode for which it is made, a command makes edits that fit. -/
theorem fits_edits (c : Command) (settings : Settings) (key : Option Key) (hs : s.Sound rule d)
    (hmode : c.home.has s.mode) {e : Edit} (h : e ∈ c.edits settings d key s) : d.Fits e.range := by
  cases c with
  | openLine below => exact State.fits_openLineEdits h
  | replaceChar =>
    simp only [edits] at h
    cases hr : Key.replacement? key with
    | some text => exact State.fits_replaceCharEdits (by simpa [hr] using h)
    | none => simp [hr] at h
  | joinLines => exact State.fits_joinLinesEdits h
  | paste after => exact State.fits_pasteEdits h
  | pasteOver storeReplaced =>
    refine State.fits_pasteOverEdits (fun sel hsel => ?_) h
    rw [State.selections_syncRegisters] at hsel
    exact hs.holds_of_visual (ModeSet.isVisual_of_anyVisual hmode) hsel
  | escape | insert place | toggleVisual | toggleVisualLine | swapEnds =>
    exact absurd h List.not_mem_nil

theorem length_edits_le (c : Command) (settings : Settings) (key : Option Key) :
    (c.edits settings d key s).length ≤ s.selections.length := by
  cases c with
  | openLine below => exact State.length_openLineEdits_le below
  | replaceChar =>
    simp only [edits]
    cases Key.replacement? key with
    | some text => exact State.length_replaceCharEdits_le text
    | none => exact Nat.zero_le _
  | joinLines => exact State.length_joinLinesEdits_le settings
  | paste after =>
    have := State.length_pasteEntries_le (s := s.syncRegisters)
    rw [State.selections_syncRegisters] at this
    exact Nat.le_trans (Nat.le_of_eq (State.length_pasteEdits after)) this
  | pasteOver storeReplaced =>
    have := State.length_pasteEntries_le (s := s.syncRegisters)
    rw [State.selections_syncRegisters] at this
    exact Nat.le_trans (Nat.le_of_eq State.length_pasteOverEdits) this
  | escape | insert place | toggleVisual | toggleVisualLine | swapEnds => exact Nat.zero_le _

/-- **What a command leads to.** In a mode for which it is made it makes its batch and keeps the
state sound, unless the editor refuses. -/
theorem leads (c : Command) (settings : Settings) (key : Option Key) (hs : s.Sound rule d)
    (hmode : c.home.has s.mode) :
    (c.run settings d key).Ends s (fun _ => s.Leads rule d (c.edits settings d key s))
      fun _ _ => s.Refuses := by
  cases c with
  | escape => exact State.escape_leads settings hs
  | insert place => exact State.enterInsert_leads hs place
  | openLine below => exact Step.openLine_leads hs below
  | replaceChar => exact Step.replaceChar_leads hs (ModeSet.isVisual_of_onlyNormal hmode) key
  | joinLines => exact Step.joinLines_leads hs (ModeSet.isVisual_of_onlyNormal hmode) settings
  | paste after => exact Step.paste_leads hs (ModeSet.isVisual_of_onlyNormal hmode) _ after
  | toggleVisual => exact State.toggleVisual_leads settings hs
  | toggleVisualLine => exact State.toggleVisualLine_leads settings hs
  | swapEnds => exact State.swapEnds_leads hs (ModeSet.isVisual_of_anyVisual hmode)
  | pasteOver storeReplaced =>
    exact Step.pasteOver_leads hs (ModeSet.isVisual_of_anyVisual hmode) _ storeReplaced

end Command

end ModalEdit
