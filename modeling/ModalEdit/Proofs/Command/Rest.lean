import ModalEdit.Proofs.Command.Invariant
import ModalEdit.Proofs.Text.Characters

/-!
# Where cursors rest

In Normal mode a cursor rests where the placement puts it: moving it there again does nothing. Every
command that ends in Normal mode places its cursors itself, in the document that it leaves behind
(`Command.rests`). Only the replacement of characters has no need to: its cursors end on what was
put in, which is a character of its line or the start of a new one (`Placement.clamp_replaced`).
-/

namespace ModalEdit

variable {d : Document} {s s' : State} {pl : Placement} {p : Position}

namespace Placement

theorem clamp_eq_self_iff :
    pl.clamp d p = p ↔ d.InBounds p ∧ p.col ≤ pl.maxCol (d.lineLen p.line) := by
  constructor
  · intro h
    have hcol := Nat.min_le_right (d.clamp p).col (pl.maxCol (d.lineLen (d.clamp p).line))
    have hin := pl.inBounds_clamp (d := d) p
    change (pl.clamp d p).col ≤ pl.maxCol (d.lineLen (pl.clamp d p).line) at hcol
    rw [h] at hcol hin
    exact ⟨hin, hcol⟩
  · rintro ⟨hin, hcol⟩
    simp only [clamp, d.clamp_of_inBounds hin, Nat.min_eq_left hcol]

/-- Placing a cursor twice is placing it once. -/
theorem clamp_clamp (pl : Placement) (p : Position) : pl.clamp d (pl.clamp d p) = pl.clamp d p :=
  clamp_eq_self_iff.2 ⟨pl.inBounds_clamp p, Nat.min_le_right _ _⟩

/-- Where typing leaves a cursor it may rest. -/
theorem clamp_afterInsert (pl : Placement) (p : Position) :
    pl.clamp d (pl.afterInsert d p) = pl.afterInsert d p := by
  have hin := d.inBounds_clamp p
  rw [clamp_eq_self_iff]
  cases pl with
  | gap => exact ⟨hin, hin.2⟩
  | onChar =>
    refine ⟨⟨hin.1, Nat.le_trans (Nat.sub_le _ _) hin.2⟩, ?_⟩
    exact Nat.sub_le_sub_right hin.2 1

/-- On a character every cursor may rest. -/
theorem clamp_of_lt (hin : d.InBounds p) (h : p.col < d.lineLen p.line) : pl.clamp d p = p := by
  refine clamp_eq_self_iff.2 ⟨hin, ?_⟩
  cases pl
  · exact hin.2
  · exact Nat.le_sub_one_of_lt h

/-- At the start of a line every cursor may rest. -/
theorem clamp_of_col_eq_zero (hin : d.InBounds p) (h : p.col = 0) : pl.clamp d p = p :=
  clamp_eq_self_iff.2 ⟨hin, h ▸ Nat.zero_le _⟩

/-- Where no cursor stands past the last character of a line, one may stand there only if the line
is empty. -/
theorem onChar_clamp_eq_self_iff : onChar.clamp d p = p ↔
    d.InBounds p ∧ (p.col < d.lineLen p.line ∨ p.col = 0 ∧ d.lineLen p.line = 0) := by
  rw [clamp_eq_self_iff]
  refine and_congr_right fun hin => ?_
  have := hin.2
  simp only [maxCol]
  omega

/-- The place of a single character that an edit has put in, or behind it if it is a line feed. -/
theorem clamp_replaced {o : Nat} {c : Char} (h : d.text[o]? = some c) :
    pl.clamp d (d.positionAt (if c = '\n' then o + 1 else o)) =
      d.positionAt (if c = '\n' then o + 1 else o) := by
  split
  · rename_i hc
    exact clamp_of_col_eq_zero (d.inBounds_positionAt _) (Document.col_positionAt_add_one (hc ▸ h))
  · rename_i hc
    exact clamp_of_lt (d.inBounds_positionAt _) (Document.col_positionAt_lt h hc)

end Placement

/-! ### States at rest -/

/-- The selection is a cursor that rests. -/
def Selection.Rests (pl : Placement) (d : Document) (sel : Selection) : Prop :=
  sel.anchor = sel.active ∧ pl.clamp d sel.active = sel.active

/-- A document is open, and in Normal mode all selections are cursors that rest. -/
def State.AtRest (pl : Placement) (s : State) : Prop :=
  ∃ d, s.editor.document = some d ∧ (s.mode = .normal → ∀ sel ∈ s.selections, sel.Rests pl d)

namespace State

/-- Being at rest is about the document, the selections and the mode. -/
theorem AtRest.congr (h : s.AtRest pl) (hdoc : s'.editor.document = s.editor.document)
    (hsels : s'.selections = s.selections) (hmode : s'.mode = s.mode) : s'.AtRest pl := by
  obtain ⟨d, hd, h⟩ := h
  refine ⟨d, hdoc.trans hd, fun hnormal => ?_⟩
  rw [hsels]
  exact h (hmode ▸ hnormal)

/-- Outside Normal mode there is nothing to say of the selections. -/
theorem atRest_of_mode (hdoc : s.editor.document = some d) (hmode : s.mode ≠ .normal) :
    s.AtRest pl :=
  ⟨d, hdoc, fun h => absurd h hmode⟩

theorem atRest_of_cursors {ps : List Position} (hdoc : s.editor.document = some d)
    (hsels : s.selections = ps.eraseDups.map .cursor) (hps : ∀ p ∈ ps, pl.clamp d p = p) :
    s.AtRest pl := by
  refine ⟨d, hdoc, fun _ sel hsel => ?_⟩
  rw [hsels] at hsel
  obtain ⟨p, hp, rfl⟩ := List.mem_map.1 hsel
  exact ⟨rfl, hps p (List.mem_eraseDups.1 hp)⟩

/-- A batch that is empty leaves a state at rest as it was. -/
theorem AtRest.edited_nil (h : s.AtRest pl) (hdoc : s.editor.document = some d) {after : Document}
    {plan : Plan} (hedit : d.edit [] = .ok (after, plan)) : (s.edited after).AtRest pl := by
  rw [d.edit_nil] at hedit
  cases hedit
  rwa [s.edited_of_document hdoc]

end State

namespace Step

theorem openLine_rests (hd : s.editor.document = some d) (below : Bool) :
    (openLine d below).Ends s (fun _ s' => s'.AtRest pl) fun _ _ => True := by
  simp only [openLine, ends_bind, ends_get, ends_modify]
  refine ends_commit hd (fun after plan _ => ?_) fun _ _ => trivial
  exact State.atRest_of_mode (d := after) rfl (by simp)

theorem text_of_replacement? {key : Option Key} {text : Text}
    (h : Key.replacement? key = some text) : ∃ c, text = [c] := by
  rcases key with _ | c | k | ⟨base, mods⟩
  · cases h
  · exact ⟨c, (Option.some.inj h).symm⟩
  · cases k
    case enter => exact ⟨'\n', (Option.some.inj h).symm⟩
    all_goals cases h
  · cases h

theorem replaceChar_rests (hs : s.AtRest pl) (hd : s.editor.document = some d)
    (key : Option Key) :
    (replaceChar d key).Ends s (fun _ s' => s'.AtRest pl) fun _ _ => True := by
  unfold replaceChar
  split
  · exact hs
  · rename_i text htext
    obtain ⟨c, rfl⟩ := text_of_replacement? htext
    simp only [ends_bind, ends_get]
    refine ends_commit hd (fun after plan hedit => ?_) fun _ _ => trivial
    split
    · refine State.atRest_of_cursors (d := after) rfl rfl fun p hp => ?_
      obtain ⟨i, hi, hp⟩ := List.mem_filterMap.1 hp
      have hget := List.getElem?_eq_getElem (List.mem_range.1 hi)
      have htext := List.getElem_mem (List.mem_range.1 hi)
      obtain ⟨q, -, hq⟩ := List.mem_map.1 htext
      -- The cursor is where the edit has put its character, or behind it.
      obtain ⟨o, hstart, hend, hchar⟩ := Document.getElem?_startOf?
        (fun e => State.fits_replaceCharEdits) hedit hget (c := c) (by rw [← hq]; rfl)
      obtain rfl : after.positionAt (if c = '\n' then o + 1 else o) = p := by
        by_cases hc : c = '\n' <;> simpa [hc, hstart, hend] using hp
      exact Placement.clamp_replaced hchar
    · rename_i hnil
      have hnil : s.replaceCharEdits d [c] = [] := by simpa using hnil
      rw [hnil] at hedit
      exact hs.edited_nil hd hedit

theorem joinLines_rests {settings : Settings} (hs : s.AtRest settings.placement)
    (hd : s.editor.document = some d) :
    (joinLines settings d).Ends s (fun _ s' => s'.AtRest settings.placement)
      fun _ _ => True := by
  simp only [joinLines, ends_bind, ends_get]
  refine ends_commit hd (fun after plan hedit => ?_) fun _ _ => trivial
  split
  · refine State.atRest_of_cursors (d := after) rfl rfl fun p hp => ?_
    obtain ⟨i, -, hp⟩ := List.mem_filterMap.1 hp
    obtain ⟨o, -, rfl⟩ := Option.map_eq_some_iff.1 hp
    exact settings.placement.clamp_clamp _
  · rename_i hnil
    have hnil := Document.eq_nil_of_no_cursors hedit
      (List.isEmpty_iff.1 (Decidable.not_not.1 hnil))
    rw [hnil] at hedit
    exact hs.edited_nil hd hedit

theorem clamp_pastedTo {after : Bool} {e : RegisterEntry} {start stop : Nat} :
    pl.clamp d (pastedTo pl d after e start stop) = pastedTo pl d after e start stop := by
  unfold pastedTo
  dsimp only
  split <;> exact pl.clamp_clamp _

theorem clamp_replacedTo {edit : Edit} {e : RegisterEntry} {start : Nat} :
    pl.clamp d (replacedTo pl d edit e start) = replacedTo pl d edit e start := by
  unfold replacedTo
  dsimp only
  split <;> exact pl.clamp_clamp _

theorem collapse_rests (hd : s.editor.document = some d) : (s.collapse pl d).AtRest pl := by
  refine State.atRest_of_cursors hd rfl fun p hp => ?_
  obtain ⟨sel, -, rfl⟩ := List.mem_map.1 hp
  exact pl.clamp_clamp _

theorem paste_rests (hs : s.AtRest pl) (hd : s.editor.document = some d) (after : Bool) :
    (paste pl d after).Ends s (fun _ s' => s'.AtRest pl) fun _ _ => True := by
  simp only [paste, ends_bind, ends_modify, ends_get]
  split
  · exact hs.congr (by simp) (by simp) (by simp)
  · simp only [ends_bind, ends_modify]
    refine ends_commit (by simpa using hd) (fun d' plan _ => ?_) fun _ _ => trivial
    refine State.atRest_of_cursors (d := d') rfl rfl fun p hp => ?_
    obtain ⟨⟨e, i⟩, -, hp⟩ := List.mem_filterMap.1 hp
    obtain ⟨start, -, hp⟩ := Option.bind_eq_some_iff.1 hp
    obtain ⟨stop, -, hp⟩ := Option.bind_eq_some_iff.1 hp
    cases hp
    exact clamp_pastedTo

theorem pasteOver_rests (hd : s.editor.document = some d) (storeReplaced : Bool) :
    (pasteOver pl d storeReplaced).Ends s (fun _ s' => s'.AtRest pl) fun _ _ => True := by
  simp only [pasteOver, ends_bind, ends_modify, ends_get]
  split
  · exact collapse_rests (by simpa using hd)
  · simp only [ends_bind]
    refine ends_commit (by simpa using hd) (fun d' plan _ => ?_) fun _ _ => trivial
    split
    all_goals
      refine State.atRest_of_cursors (d := d') (by simp) rfl fun p hp => ?_
      obtain ⟨⟨⟨edit, e⟩, i⟩, -, hp⟩ := List.mem_filterMap.1 hp
      obtain ⟨start, -, hp⟩ := Option.bind_eq_some_iff.1 hp
      cases hp
      exact clamp_replacedTo

theorem type_rests (hd : s.editor.document = some d) (hmode : s.mode = .insert) (t : Typed) :
    (type d t).Ends s (fun _ s' => s'.AtRest pl) fun _ _ => True := by
  simp only [type, ends_bind, ends_get, ends_modify]
  refine ends_commit hd (fun after plan _ => ?_) fun _ _ => trivial
  exact State.atRest_of_mode (d := after) rfl (by simp [hmode])

/-- An operator that has run leaves its cursors at rest, or typing goes on. -/
theorem apply_rests (hd : s.editor.document = some d) (kind : OperatorKind)
    (targets : List Target) (ofSelection : Bool) :
    (kind.apply pl d targets ofSelection).Ends s (fun _ s' => s'.AtRest pl) fun _ _ => True := by
  unfold OperatorKind.apply
  dsimp only
  split
  · refine State.atRest_of_cursors (by simpa using hd) rfl fun p hp => ?_
    obtain ⟨t, -, rfl⟩ := List.mem_map.1 hp
    exact pl.clamp_clamp _
  · simp only [ends_bind, ends_modify]
    refine ends_commit hd (fun after plan _ => ?_) fun _ _ => trivial
    by_cases hkind : kind = .change
    · exact State.atRest_of_mode (d := after) (by simp) (by simp [hkind])
    · refine State.atRest_of_cursors (d := after) (by simp) rfl fun p hp => ?_
      obtain ⟨t, -, rfl⟩ := List.mem_map.1 hp
      simp only [OperatorKind.removedTo, if_neg hkind]
      split <;> exact pl.clamp_clamp _

end Step

namespace State

variable {settings : Settings}

theorem escape_rests (hs : s.AtRest settings.placement) (hd : s.editor.document = some d) :
    (s.escape settings d).AtRest settings.placement := by
  unfold escape
  split
  · split
    · exact hs
    · refine atRest_of_cursors hd rfl fun p hp => ?_
      obtain rfl := List.mem_singleton.1 hp
      exact settings.placement.clamp_clamp _
  · refine atRest_of_cursors hd rfl fun p hp => ?_
    obtain ⟨q, -, rfl⟩ := List.mem_map.1 hp
    exact settings.placement.clamp_afterInsert q
  · exact Step.collapse_rests hd
  · exact Step.collapse_rests hd

theorem toggleVisual_rests (hd : s.editor.document = some d) :
    (s.toggleVisual settings d).AtRest settings.placement := by
  unfold toggleVisual
  split
  · exact Step.collapse_rests hd
  all_goals exact atRest_of_mode hd (by simp)

theorem toggleVisualLine_rests (hd : s.editor.document = some d) :
    (s.toggleVisualLine settings d).AtRest settings.placement := by
  unfold toggleVisualLine
  split
  · exact Step.collapse_rests hd
  all_goals exact atRest_of_mode hd (by simp)

end State

/-- **Every command leaves the cursors of Normal mode at rest.** -/
theorem Command.rests (c : Command) {settings : Settings} (key : Option Key)
    (hs : s.AtRest settings.placement) (hd : s.editor.document = some d)
    (hmode : c = .swapEnds → s.mode.isVisual = true) :
    (c.run settings d key).Ends s (fun _ s' => s'.AtRest settings.placement) fun _ _ => True := by
  cases c with
  | escape => exact State.escape_rests hs hd
  | insert place => exact State.atRest_of_mode hd (by simp [State.enterInsert])
  | openLine below => exact Step.openLine_rests hd below
  | replaceChar => exact Step.replaceChar_rests hs hd key
  | joinLines => exact Step.joinLines_rests hs hd
  | paste after => exact Step.paste_rests hs hd after
  | toggleVisual => exact State.toggleVisual_rests hd
  | toggleVisualLine => exact State.toggleVisualLine_rests hd
  | swapEnds =>
    refine State.atRest_of_mode hd fun h => ?_
    rw [show (s.swapEnds d).mode = s.mode from rfl] at h
    simp [h, Mode.isVisual] at hmode
  | pasteOver storeReplaced => exact Step.pasteOver_rests hd storeReplaced

end ModalEdit
