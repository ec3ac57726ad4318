import ModalEdit.Proofs.Selection.Extent
import ModalEdit.Proofs.Step

/-!
# The selections of a session

`State.Sound` is what holds of the selections between keys. There is always one. In Normal mode and
in Insert mode they are cursors and no two are the same; in the visual modes they cover characters
or whole lines. Except for the cursors of Normal mode, which keep their column on their way up and
down, they are in bounds.

Where the cursors of Normal mode may be is left to a `CursorRule`, so that the invariant covers both
a session that began with its cursors in the document and one that did not.

`State.Leads` is the promise of a command: a batch of edits leads to a sound state with no more
selections than before.
-/

namespace ModalEdit

/-! ### Lists in which nothing is repeated -/

section Distinct

variable {α : Type} [BEq α]

theorem eraseDups_sublist (l : List α) : l.eraseDups.Sublist l := by
  match l with
  | [] => simp
  | a :: l =>
    rw [List.eraseDups_cons]
    exact ((eraseDups_sublist _).trans List.filter_sublist).cons_cons a
termination_by l.length
decreasing_by exact Nat.lt_succ_of_le (List.length_filter_le _ _)

theorem nodup_eraseDups [LawfulBEq α] (l : List α) : l.eraseDups.Nodup := by
  match l with
  | [] => simp
  | a :: l =>
    rw [List.eraseDups_cons, List.nodup_cons]
    exact ⟨by simp, nodup_eraseDups _⟩
termination_by l.length
decreasing_by exact Nat.lt_succ_of_le (List.length_filter_le _ _)

theorem eraseDups_eq_self [LawfulBEq α] {l : List α} (h : l.Nodup) : l.eraseDups = l := by
  induction l with
  | nil => rfl
  | cons a l ih =>
    obtain ⟨ha, h⟩ := List.nodup_cons.1 h
    have hkeep : l.filter (fun b => !b == a) = l := by
      refine List.filter_eq_self.2 fun b hb => ?_
      simpa using fun heq : b = a => ha (heq ▸ hb)
    rw [List.eraseDups_cons, hkeep, ih h]

/-- The last element adds nothing if it is there already. -/
theorem eraseDups_concat [LawfulBEq α] (l : List α) (a : α) :
    (l ++ [a]).eraseDups = l.eraseDups ++ [a].removeAll l := by
  have hone : ([a].removeAll l).eraseDups = [a].removeAll l := by
    refine eraseDups_eq_self ?_
    exact (List.nodup_singleton a).sublist List.filter_sublist
  rw [List.eraseDups_append, hone]

/-- What is repeated can be dropped before a function is applied. -/
theorem eraseDups_map_eraseDups {β : Type} [BEq β] [LawfulBEq α] [LawfulBEq β] (f : α → β)
    (l : List α) : (l.eraseDups.map f).eraseDups = (l.map f).eraseDups := by
  induction l using List.reverseRecOn with
  | nil => rfl
  | append_singleton l a ih =>
    have hsame : [f a].removeAll (l.eraseDups.map f) = [f a].removeAll (l.map f) := by
      refine List.filter_congr fun b _ => ?_
      rw [Bool.eq_iff_iff]
      simp
    rw [eraseDups_concat, List.map_append, List.map_append, List.map_singleton, eraseDups_concat,
      ← ih]
    by_cases ha : a ∈ l
    · have hfa := List.mem_map_of_mem (f := f) ha
      simp [List.removeAll, ha, hfa]
    · have hlast : [a].removeAll l = [a] := by simp [List.removeAll, ha]
      rw [hlast, List.map_singleton, eraseDups_concat, hsame]

theorem eraseDups_ne_nil {l : List α} (h : l ≠ []) : l.eraseDups ≠ [] := by
  obtain ⟨a, l, rfl⟩ := List.exists_cons_of_ne_nil h
  rw [List.eraseDups_cons]
  exact List.cons_ne_nil _ _

end Distinct

/-! ### The invariant -/

/-- A rule for where the cursors of Normal mode may be. It must allow every position in bounds and
the steps up and down. -/
structure CursorRule where
  /-- The positions allowed. -/
  Allows : Document → Position → Prop
  of_inBounds : ∀ {d : Document} {p : Position}, d.InBounds p → Allows d p
  up : ∀ {d : Document} {p : Position}, Allows d p → Allows d p.up
  down : ∀ {d : Document} {p : Position}, Allows d p → Allows d (d.down p)

/-- Cursors may be anywhere, even outside the document. -/
def CursorRule.anywhere : CursorRule where
  Allows _ _ := True
  of_inBounds _ := trivial
  up _ := trivial
  down _ := trivial

/-- Cursors are on lines that exist. -/
def CursorRule.onLine : CursorRule where
  Allows d p := p.line < d.lineCount
  of_inBounds h := h.1
  up {d p} h := by
    unfold Position.up
    split
    · exact Nat.lt_of_le_of_lt (Nat.sub_le _ _) h
    · exact h
  down {d p} h := by
    unfold Document.down
    split <;> assumption

/-- How a selection looks in a mode. -/
def Selection.Suits (rule : CursorRule) (d : Document) (sel : Selection) : Mode → Prop
  | .normal => sel.anchor = sel.active ∧ rule.Allows d sel.active
  | .insert => sel.anchor = sel.active ∧ d.InBounds sel.active
  | .visual => d.Holds sel
  | .visualLine => d.CoversLines sel

/-- What holds of a state between keys, `d` being the document that is open. -/
structure State.Sound (rule : CursorRule) (s : State) (d : Document) : Prop where
  /-- The document is open. -/
  document : s.editor.document = some d
  /-- There is a selection. -/
  ne_nil : s.selections ≠ []
  /-- Every selection looks as it does in the mode. -/
  suits : ∀ sel ∈ s.selections, sel.Suits rule d s.mode
  /-- No two cursors are the same. -/
  nodup : s.mode.isVisual = false → s.selections.Nodup

/-- There is a reason for which a command may fail: the editor refuses edits or commands, or there
are several selections, whose edits may overlap. -/
def State.Refuses (s : State) : Prop := s.access ≠ (false, false) ∨ 1 < s.selections.length

/-- From the state `s` with the document `d` the batch leads to `s'`. -/
structure State.Leads (rule : CursorRule) (s : State) (d : Document) (edits : List Edit)
    (s' : State) : Prop where
  /-- The batch has been made, and the state is sound. -/
  sound : ∃ after plan, d.edit edits = .ok (after, plan) ∧ s'.Sound rule after
  /-- There are no more selections than before. -/
  length_le : s'.selections.length ≤ s.selections.length
  /-- The editor refuses what it refused before. -/
  access : s'.access = s.access

section

variable {rule : CursorRule} {s s' : State} {d : Document}

namespace State

theorem Sound.length_pos (h : s.Sound rule d) : 0 < s.selections.length :=
  List.length_pos_iff.2 h.ne_nil

/-- Soundness is about the document, the selections and the mode. -/
theorem Sound.congr (h : s.Sound rule d) (hdoc : s'.editor.document = s.editor.document)
    (hsels : s'.selections = s.selections) (hmode : s'.mode = s.mode) : s'.Sound rule d where
  document := hdoc ▸ h.document
  ne_nil := hsels ▸ h.ne_nil
  suits sel hsel := hmode ▸ h.suits sel (hsels ▸ hsel)
  nodup hvisual := hsels ▸ h.nodup (hmode ▸ hvisual)

/-- Cursors, each position once, are sound if each of them looks right. -/
theorem sound_of_cursors {ps : List Position} (hdoc : s.editor.document = some d)
    (hsels : s.selections = ps.eraseDups.map .cursor) (hne : ps ≠ [])
    (hps : ∀ p ∈ ps, (Selection.cursor p).Suits rule d s.mode) : s.Sound rule d where
  document := hdoc
  ne_nil := by
    rw [hsels]
    simpa using eraseDups_ne_nil hne
  suits sel hsel := by
    rw [hsels] at hsel
    obtain ⟨p, hp, rfl⟩ := List.mem_map.1 hsel
    exact hps p (List.mem_eraseDups.1 hp)
  nodup _ := by
    rw [hsels]
    refine List.pairwise_map.2 ((nodup_eraseDups ps).imp fun hne h => hne ?_)
    exact congrArg Selection.active h

/-- In Normal mode the cursors have to be where the rule allows them. -/
theorem sound_of_normal {ps : List Position} (hdoc : s.editor.document = some d)
    (hsels : s.selections = ps.eraseDups.map .cursor) (hmode : s.mode = .normal)
    (hne : ps ≠ []) (hps : ∀ p ∈ ps, rule.Allows d p) : s.Sound rule d := by
  refine sound_of_cursors hdoc hsels hne fun p hp => ?_
  rw [hmode]
  exact ⟨rfl, hps p hp⟩

/-- Cursors in bounds are sound in Normal mode and in Insert mode. -/
theorem sound_of_inBounds {ps : List Position} (hdoc : s.editor.document = some d)
    (hsels : s.selections = ps.eraseDups.map .cursor) (hmode : s.mode.isVisual = false)
    (hne : ps ≠ []) (hps : ∀ p ∈ ps, d.InBounds p) : s.Sound rule d := by
  refine sound_of_cursors hdoc hsels hne fun p hp => ?_
  cases h : s.mode with
  | normal => exact ⟨rfl, rule.of_inBounds (hps p hp)⟩
  | insert => exact ⟨rfl, hps p hp⟩
  | visual => simp [h, Mode.isVisual] at hmode
  | visualLine => simp [h, Mode.isVisual] at hmode

/-- Selections are sound in a visual mode if each of them looks right. -/
theorem sound_of_visual (hdoc : s.editor.document = some d) (hmode : s.mode.isVisual = true)
    (hne : s.selections ≠ []) (hsels : ∀ sel ∈ s.selections, sel.Suits rule d s.mode) :
    s.Sound rule d :=
  ⟨hdoc, hne, hsels, fun h => by simp [hmode] at h⟩

/-- Outside Normal mode every selection is in bounds. -/
theorem Sound.holds (h : s.Sound rule d) (hmode : s.mode ≠ .normal) {sel : Selection}
    (hsel : sel ∈ s.selections) : d.Holds sel := by
  have hsuits := h.suits sel hsel
  cases hm : s.mode with
  | normal => exact absurd hm hmode
  | insert =>
    rw [hm] at hsuits
    exact ⟨hsuits.1 ▸ hsuits.2, hsuits.2⟩
  | visual =>
    rw [hm] at hsuits
    exact hsuits
  | visualLine =>
    rw [hm] at hsuits
    exact hsuits.holds

/-- The cursors of a sound state, once moved into the document. -/
theorem cursorsIn_ne_nil (h : s.Sound rule d) : s.cursorsIn d ≠ [] :=
  eraseDups_ne_nil (by simpa using h.ne_nil)

theorem inBounds_of_mem_cursorsIn {p : Position} (h : p ∈ s.cursorsIn d) : d.InBounds p := by
  obtain ⟨sel, -, rfl⟩ := List.mem_map.1 (List.mem_eraseDups.1 h)
  exact d.inBounds_clamp _

theorem length_cursorsIn_le : (s.cursorsIn d).length ≤ s.selections.length := by
  have := (eraseDups_sublist (s.selections.map fun sel => d.clamp sel.active)).length_le
  rwa [List.length_map] at this

theorem length_cursorLines_le : (s.cursorLines d).length ≤ s.selections.length := by
  have := (eraseDups_sublist ((s.cursorsIn d).map (·.line))).length_le
  rw [List.length_map] at this
  exact Nat.le_trans this length_cursorsIn_le

theorem cursorLines_ne_nil (h : s.Sound rule d) : s.cursorLines d ≠ [] :=
  eraseDups_ne_nil (by simpa using cursorsIn_ne_nil h)

theorem lt_of_mem_cursorLines {i : Nat} (h : i ∈ s.cursorLines d) : i < d.lineCount := by
  obtain ⟨p, hp, rfl⟩ := List.mem_map.1 (List.mem_eraseDups.1 h)
  exact (inBounds_of_mem_cursorsIn hp).1

/-! ### Promises -/

/-- A command that edits nothing only has to keep the selections in order. -/
theorem Leads.of_sound (hs : s'.Sound rule d) (hlen : s'.selections.length ≤ s.selections.length)
    (haccess : s'.access = s.access) : s.Leads rule d [] s' :=
  ⟨⟨d, _, d.edit_nil, hs⟩, hlen, haccess⟩

theorem Leads.refl (hs : s.Sound rule d) : s.Leads rule d [] s :=
  .of_sound hs (Nat.le_refl _) rfl

theorem length_setCursors_le {ps : List Position} (h : ps.length ≤ s.selections.length) :
    (ps.eraseDups.map Selection.cursor).length ≤ s.selections.length := by
  rw [List.length_map]
  exact Nat.le_trans (eraseDups_sublist ps).length_le h

end State

/-- **A batch in bounds with at most one edit per selection** is made, unless the editor refuses. -/
theorem Step.ends_commit_of_fits {edits : List Edit} {Q : Document × Plan → State → Prop}
    (hd : s.editor.document = some d) (hfits : ∀ e ∈ edits, d.Fits e.range)
    (hlen : edits.length ≤ s.selections.length)
    (hQ : ∀ after plan, d.edit edits = .ok (after, plan) → Q (after, plan) (s.edited after)) :
    (commit d edits).Ends s Q fun _ _ => s.Refuses := by
  refine ends_commit hd hQ fun e he => ?_
  rcases he with ⟨c, hc, -⟩ | hreadonly
  · refine .inr (Nat.lt_of_not_le fun hone => ?_)
    obtain ⟨after, plan, h⟩ := Document.exists_edit_of_length_le_one
      (fun e he => ⟨(hfits e he).start, (hfits e he).stop⟩) (Nat.le_trans hlen hone)
    rw [hc] at h
    cases h
  · refine .inl fun haccess => ?_
    simp [State.access, hreadonly] at haccess

end

end ModalEdit
