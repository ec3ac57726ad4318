import ModalEdit.Proofs.Action.Invariant
import ModalEdit.Proofs.Selection.Recall

/-!
# Motions in the visual modes

In the visual modes a motion moves the head of every selection and leaves the anchor. Both are read
back from the selection before each motion, so the anchor stays only as long as the selection
remembers it. `Step.ends_motion` says what one motion makes of the selections and
`Step.motions_keep` what a run of motions keeps.

`lineCovering_recalled_iff` and `covering_recalled_iff` say for which documents all selections are
remembered. They are the documents in which no run of motions moves an anchor and, in visual line
mode, every line can be selected from everywhere: those whose text does not end in a line break.
-/

namespace ModalEdit

variable {d : Document} {s : State}

/-- The selection covers characters, as in visual mode. -/
def Document.CoversChars (d : Document) (sel : Selection) : Prop :=
  ∃ anchor head, d.NamesChar anchor ∧ d.NamesChar head ∧ sel = d.covering anchor head

/-- Whether keys are the beginning of those of a motion does not depend on the place. -/
theorem Motion.result?_of_isPartly {m : Motion} {keys : List Key} {u u' : Surroundings}
    {p p' : Position} (h : (m.compute d u p keys).isPartly = true) :
    (m.compute d u' p' keys).result? = none := by
  unfold compute at h ⊢
  cases hparse : m.pattern.parse keys with
  | none => rfl
  | partly => rfl
  | full captured rest =>
    rw [hparse, Found.ofMatch] at h
    cases htake : m.walk.take? d u (captured.map (·.2)) p <;> simp [htake, Found.isPartly] at h

namespace State

/-- Visual line mode, with the document `d` open and selections that cover whole lines. -/
structure SelectsLines (s : State) (d : Document) : Prop where
  /-- The document is open. -/
  document : s.editor.document = some d
  /-- The mode is visual line mode. -/
  mode : s.mode = .visualLine
  /-- Every selection covers whole lines. -/
  covers : ∀ sel ∈ s.selections, d.CoversLines sel

/-- Visual mode, with the document `d` open and selections that cover characters. -/
structure SelectsChars (s : State) (d : Document) : Prop where
  /-- The document is open. -/
  document : s.editor.document = some d
  /-- The mode is visual mode. -/
  mode : s.mode = .visual
  /-- Every selection covers characters. -/
  covers : ∀ sel ∈ s.selections, d.CoversChars sel

/-- A state with one selection. -/
def single (d : Document) (m : Mode) (sel : Selection) : State :=
  ⟨{ document := some d, selections := [sel] }, { mode := m }⟩

theorem selectsLines_single {i : Nat} (hi : i < d.lineCount) :
    (single d .visualLine (d.lineCovering i i)).SelectsLines d :=
  ⟨rfl, rfl, List.forall_mem_singleton.2 ⟨i, i, hi, hi, rfl⟩⟩

theorem selectsChars_single {p : Position} (hp : d.NamesChar p) :
    (single d .visual (d.covering p p)).SelectsChars d :=
  ⟨rfl, rfl, List.forall_mem_singleton.2 ⟨p, p, hp, hp, rfl⟩⟩

/-- What a motion makes of a selection. -/
def extended (s : State) (d : Document) (m : Motion) (keys : List Key) (sel : Selection) :
    Selection :=
  ((m.compute d ⟨s.session.lastFind, true⟩ (s.head d sel) keys).result?.map fun a =>
    s.moveHead d sel a.target).getD sel

theorem moveHead_congr {s' : State} (h : s'.mode = s.mode) : s'.moveHead d = s.moveHead d := by
  funext sel target
  simp only [moveHead, h]

theorem extended_eq_self {m : Motion} {keys : List Key} {sel : Selection}
    (h : (m.compute d ⟨s.session.lastFind, true⟩ (s.head d sel) keys).result? = none) :
    s.extended d m keys sel = sel := by
  rw [extended, h]
  rfl

end State

namespace Motion

/-- The motion one line down, with its key. -/
def lineDown : Motion × List Key := (.onChar "down" 'j' .down, [.char 'j'])

/-- The motion to the start of the document, with its keys. -/
def toStart : Motion × List Key :=
  (.onChars "document-start" 'g' 'g' .documentStart, [.char 'g', .char 'g'])

end Motion

/-- To the start of the document the head moves from everywhere. -/
theorem State.extended_toStart (s : State) (d : Document) (sel : Selection) :
    s.extended d Motion.toStart.1 Motion.toStart.2 sel = s.moveHead d sel d.documentStart := rfl

namespace Step

/-! ### Runs of motions -/

/-- Motions made one after the other, each called by its keys. -/
def motions (settings : Settings) : List (Motion × List Key) → Step Unit
  | [] => return
  | (m, keys) :: rest => do
    let _ ← (Action.motion m).answer settings keys
    motions settings rest

/-- **What a motion does in a visual mode.** -/
theorem ends_motion (settings : Settings) (m : Motion) (keys : List Key)
    (hdoc : s.editor.document = some d) (hmode : s.mode.isVisual = true)
    {E : EditorError → State → Prop} :
    ((Action.motion m).answer settings keys).Ends s
      (fun _ s' => s'.editor.document = some d ∧ s'.mode = s.mode ∧
        s'.selections = s.selections.map (s.extended d m keys)) E := by
  -- A motion that finds nothing leaves the selections.
  have hsame (h : ∀ sel ∈ s.selections,
      (m.compute d ⟨s.session.lastFind, true⟩ (s.head d sel) keys).result? = none) :
      s.selections = s.selections.map (s.extended d m keys) := by
    conv_lhs => rw [← List.map_id s.selections]
    exact List.map_congr_left fun sel hsel => (State.extended_eq_self (h sel hsel)).symm
  have hextend : (extend d m keys).Ends s (fun _ s' => s'.editor.document = some d ∧
      s'.mode = s.mode ∧ s'.selections = s.selections.map (s.extended d m keys)) E := by
    simp only [extend, ends_bind, ends_get]
    split
    · rename_i hpartly
      obtain ⟨f, hf, hpartly⟩ := List.any_eq_true.1 hpartly
      obtain ⟨sel, -, rfl⟩ := List.mem_map.1 hf
      exact ⟨hdoc, rfl, hsame fun _ _ => Motion.result?_of_isPartly hpartly⟩
    · split
      · simp only [ends_bind, ends_modify, ends_pure]
        refine ⟨hdoc, rfl, ?_⟩
        rw [State.selections_select, State.headArrivals, List.map_map]
        rfl
      · rename_i hnone
        refine ⟨hdoc, rfl, hsame fun sel hsel => ?_⟩
        by_contra hsome
        refine hnone (List.any_eq_true.2 ⟨_, List.mem_map_of_mem hsel, ?_⟩)
        exact Option.isSome_iff_ne_none.2 hsome
  simp only [Action.answer]
  split
  · rename_i hparse
    refine ⟨hdoc, rfl, hsame fun sel _ => ?_⟩
    rw [Motion.compute, hparse]
    rfl
  · rw [ends_withDocument_of_some hdoc, ends_bind, ends_get, if_pos hmode]
    exact hextend

/-- **What a run of motions keeps.** `P` relates the selections to those at the start, and is kept
when the head of a selection is moved to a line that exists. -/
theorem motions_keep {P : Selection → Selection → Prop} {l : List Selection}
    {g : Selection → Selection} (settings : Settings) (ms : List (Motion × List Key))
    (hdoc : s.editor.document = some d) (hmode : s.mode.isVisual = true)
    (hholds : ∀ sel₀ sel, P sel₀ sel → d.Holds sel)
    (hstep : ∀ sel₀ sel p, P sel₀ sel → p.line < d.lineCount → P sel₀ (s.moveHead d sel p))
    (hsels : s.selections = l.map g) (h : ∀ sel₀ ∈ l, P sel₀ (g sel₀)) :
    (motions settings ms).Ends s
      (fun _ s' => s'.editor.document = some d ∧ s'.mode = s.mode ∧
        ∃ f, s'.selections = l.map f ∧ ∀ sel₀ ∈ l, P sel₀ (f sel₀)) fun _ _ => False := by
  induction ms generalizing s g with
  | nil => exact ⟨hdoc, rfl, g, hsels, h⟩
  | cons step ms ih =>
    obtain ⟨m, keys⟩ := step
    rw [motions, ends_bind]
    refine (ends_motion settings m keys hdoc hmode).mono (fun _ s' hs' => ?_) fun _ _ he => he
    obtain ⟨hdoc', hmode', hsels'⟩ := hs'
    rw [hsels, List.map_map] at hsels'
    have hnext : ∀ sel₀ ∈ l, P sel₀ (s.extended d m keys (g sel₀)) := by
      intro sel₀ hsel₀
      have hP := h sel₀ hsel₀
      cases hres : (m.compute d ⟨s.session.lastFind, true⟩ (s.head d (g sel₀)) keys).result? with
      | none => rwa [State.extended_eq_self hres]
      | some a =>
        rw [State.extended, hres]
        exact hstep _ _ _ hP (line_lt_of_target (State.inBounds_head (hholds _ _ hP))
          (Motion.target_of_compute hres))
    have hrun := ih hdoc' (hmode' ▸ hmode) (State.moveHead_congr hmode' ▸ hstep) hsels' hnext
    exact hrun.mono (fun _ _ h => ⟨h.1, h.2.1.trans hmode', h.2.2⟩) fun _ _ he => he

/-- The motion to the start of the document moves all heads there. -/
theorem motions_toStart (settings : Settings) (hdoc : s.editor.document = some d)
    (hmode : s.mode.isVisual = true) :
    (motions settings [Motion.toStart]).Ends s
      (fun _ s' => s'.selections = s.selections.map fun sel => s.moveHead d sel d.documentStart)
      fun _ _ => False := by
  rw [motions, ends_bind]
  exact (ends_motion settings _ _ hdoc hmode).mono (fun _ _ h => h.2.2) fun _ _ he => he

/-! ### Lines -/

open Document in
/-- In a text that does not end in a line break **no motion moves the line of an anchor**. -/
theorem motions_keep_anchorLine (hs : s.SelectsLines d) (hd : ¬ d.EndsInBreak)
    (settings : Settings) (ms : List (Motion × List Key)) :
    (motions settings ms).Ends s
      (fun _ s' => s'.selections.map (·.lineEndpoints.1) = s.selections.map (·.lineEndpoints.1))
      fun _ _ => False := by
  let P (sel₀ sel : Selection) : Prop :=
    d.CoversLines sel ∧ sel.lineEndpoints.1 = sel₀.lineEndpoints.1
  have hstep : ∀ sel₀ sel p, P sel₀ sel → p.line < d.lineCount →
      P sel₀ (s.moveHead d sel p) := by
    rintro sel₀ sel p ⟨hcovers, hanchor⟩ hp
    have ha := (lineEndpoints_lt hcovers.holds).1
    have hlast := d.lastLine_add_one
    simp only [P, State.moveHead, hs.mode, ↓reduceIte]
    refine ⟨⟨_, _, ha, hp, rfl⟩, ?_⟩
    rw [(lineEndpoints_lineCovering_eq_iff (by omega) (by omega)).2 (.inr (.inl hd))]
    exact hanchor
  refine (motions_keep settings ms hs.document (by rw [hs.mode]; rfl) (fun _ _ h => h.1.holds)
    hstep (List.map_id _).symm fun sel hsel => ⟨hs.covers sel hsel, rfl⟩).mono
    (fun _ s' h => ?_) fun _ _ he => he
  obtain ⟨-, -, f, hsels, hP⟩ := h
  rw [hsels, List.map_map]
  exact List.map_congr_left fun sel hsel => (hP sel hsel).2

open Document in
/-- In a text that ends in a line break the way from the last line to the start moves the anchor to
the line before the last one. -/
theorem motions_move_anchorLine (hd : d.EndsInBreak) (settings : Settings) :
    let s := State.single d .visualLine (d.lineCovering d.lastLine d.lastLine)
    (motions settings [Motion.toStart]).Ends s
      (fun _ s' => ¬ s'.selections.map (·.lineEndpoints.1) = s.selections.map (·.lineEndpoints.1))
      fun _ _ => False := by
  intro s
  refine (motions_toStart settings rfl rfl).mono (fun _ s' hmoved hkept => ?_) fun _ _ he => he
  have hpos := (endsInBreak_iff.1 hd).1
  have hself := lineEndpoints_lineCovering_self (d := d) (Nat.le_refl d.lastLine)
  have hmode : s.mode = .visualLine := rfl
  have hsels : s.selections = [d.lineCovering d.lastLine d.lastLine] := rfl
  rw [hmoved, hsels] at hkept
  simp only [State.moveHead, hmode, ↓reduceIte, List.map_cons, List.map_nil, hself, documentStart,
    lineEndpoints_lineCovering (Nat.le_refl _) (Nat.zero_le _), Nat.ne_of_gt hpos, recalledLine, hd,
    List.cons.injEq, and_true] at hkept
  omega

open Document in
/-- In a text that ends in a line break no motions lead from the first line to the last one. -/
theorem motions_miss_lastLine (hd : d.EndsInBreak) (settings : Settings)
    (ms : List (Motion × List Key)) :
    let s := State.single d .visualLine (d.lineCovering 0 0)
    (motions settings ms).Ends s
      (fun _ s' => ¬ s'.selections.map (·.lineEndpoints) =
        s.selections.map fun sel => (sel.lineEndpoints.1, d.lastLine)) fun _ _ => False := by
  intro s
  have hpos := (endsInBreak_iff.1 hd).1
  have hlast := d.lastLine_add_one
  let P (_ sel : Selection) : Prop :=
    d.CoversLines sel ∧ sel.lineEndpoints.1 < d.lastLine ∧ sel.lineEndpoints.2 < d.lastLine
  have hstep : ∀ sel₀ sel p, P sel₀ sel → p.line < d.lineCount →
      P sel₀ (s.moveHead d sel p) := by
    rintro sel₀ sel p ⟨hcovers, ha, -⟩ hp
    have hmode : s.mode = .visualLine := rfl
    simp only [P, State.moveHead, hmode, ↓reduceIte]
    refine ⟨⟨_, _, by omega, hp, rfl⟩, ?_⟩
    rw [lineEndpoints_lineCovering (by omega) (by omega)]
    split
    · rename_i heq
      exact ⟨ha, heq ▸ ha⟩
    · simp only [recalledLine, hd, ↓reduceIte]
      omega
  have hinit : ∀ sel ∈ s.selections, P sel sel := by
    refine List.forall_mem_singleton.2 ⟨⟨0, 0, by omega, by omega, rfl⟩, ?_⟩
    rw [lineEndpoints_lineCovering_self (Nat.zero_le _)]
    exact ⟨hpos, hpos⟩
  refine (motions_keep settings ms rfl rfl (fun _ _ h => h.1.holds) hstep (List.map_id _).symm
    hinit).mono (fun _ s' h hreached => ?_) fun _ _ he => he
  obtain ⟨-, -, f, hsels, hP⟩ := h
  have hhead := (hP _ (List.mem_singleton_self _)).2.2
  rw [hsels] at hreached
  have := congrArg Prod.snd (List.cons.inj hreached).1
  dsimp only [id_eq] at this
  omega

open Document in
/-- Moving down line by line. -/
theorem motions_lineDown (hd : ¬ d.EndsInBreak) (settings : Settings)
    (hdoc : s.editor.document = some d) (hmode : s.mode = .visualLine) {l : List Selection}
    {anchor : Selection → Nat} {i n : Nat} (hanchor : ∀ sel ∈ l, anchor sel ≤ d.lastLine)
    (hi : i + n ≤ d.lastLine)
    (hsels : s.selections = l.map fun sel => d.lineCovering (anchor sel) i) :
    (motions settings (List.replicate n Motion.lineDown)).Ends s
      (fun _ s' => s'.selections = l.map fun sel => d.lineCovering (anchor sel) (i + n))
      fun _ _ => False := by
  induction n generalizing s i with
  | zero => exact hsels
  | succ n ih =>
    have hlast := d.lastLine_add_one
    rw [List.replicate_succ, Motion.lineDown, motions, ends_bind]
    refine (ends_motion settings _ _ hdoc (by rw [hmode]; rfl)).mono (fun _ s' hs' => ?_)
      fun _ _ he => he
    obtain ⟨hdoc', hmode', hsels'⟩ := hs'
    rw [Nat.add_comm n 1, ← Nat.add_assoc] at hi ⊢
    refine ih hdoc' (hmode'.trans hmode) hi ?_
    rw [hsels', hsels, List.map_map]
    refine List.map_congr_left fun sel hsel => ?_
    have hends : (d.lineCovering (anchor sel) i).lineEndpoints = (anchor sel, i) :=
      (lineEndpoints_lineCovering_eq_iff (hanchor sel hsel) (by omega)).2 (.inr (.inl hd))
    have hdown : d.down ⟨i, 0⟩ = ⟨i + 1, 0⟩ := if_pos (by dsimp only; omega)
    have htarget : ((Motion.onChar "down" 'j' .down).compute d ⟨s.session.lastFind, true⟩
        (s.head d (d.lineCovering (anchor sel) i)) [.char 'j']).result? =
          some { target := ⟨i + 1, 0⟩ } := by
      rw [State.head, if_pos hmode, hends, ← hdown]
      rfl
    rw [Function.comp_apply, State.extended, htarget]
    simp only [Option.map_some, Option.getD_some, State.moveHead, hmode, ↓reduceIte, hends]

open Document in
/-- In a text that does not end in a line break **every line can be selected from everywhere**. -/
theorem motions_reach (hs : s.SelectsLines d) (hd : ¬ d.EndsInBreak) (settings : Settings) {i : Nat}
    (hi : i < d.lineCount) :
    (motions settings (Motion.toStart :: List.replicate i Motion.lineDown)).Ends s
      (fun _ s' => s'.selections.map (·.lineEndpoints) =
        s.selections.map fun sel => (sel.lineEndpoints.1, i)) fun _ _ => False := by
  have hlast := d.lastLine_add_one
  have hanchor : ∀ sel ∈ s.selections, sel.lineEndpoints.1 ≤ d.lastLine := fun sel hsel => by
    have := (lineEndpoints_lt (hs.covers sel hsel).holds).1
    omega
  rw [motions, ends_bind]
  refine (ends_motion settings _ _ hs.document (by rw [hs.mode]; rfl)).mono (fun _ s' hs' => ?_)
    fun _ _ he => he
  obtain ⟨hdoc', hmode', hsels'⟩ := hs'
  have hstart : s'.selections = s.selections.map fun sel =>
      d.lineCovering sel.lineEndpoints.1 0 := by
    rw [hsels']
    refine List.map_congr_left fun sel _ => ?_
    rw [State.extended_toStart, State.moveHead, if_pos hs.mode, documentStart]
  refine (motions_lineDown hd settings hdoc' (hmode'.trans hs.mode) hanchor (by omega)
    hstart).mono (fun _ s'' hsels'' => ?_) fun _ _ he => he
  rw [hsels'', List.map_map, Nat.zero_add]
  refine List.map_congr_left fun sel hsel => ?_
  exact (lineEndpoints_lineCovering_eq_iff (hanchor sel hsel) (by omega)).2 (.inr (.inl hd))

/-! ### Characters -/

open Document in
/-- In a text that does not end in a line break **no motion moves the character of an anchor**. -/
theorem motions_keep_anchorChar (hs : s.SelectsChars d) (hd : ¬ d.EndsInBreak)
    (settings : Settings) (ms : List (Motion × List Key)) :
    (motions settings ms).Ends s
      (fun _ s' => s'.selections.map (fun sel => (d.charEndpoints sel).1) =
        s.selections.map fun sel => (d.charEndpoints sel).1) fun _ _ => False := by
  let P (sel₀ sel : Selection) : Prop :=
    d.CoversChars sel ∧ (d.charEndpoints sel).1 = (d.charEndpoints sel₀).1
  have hends : ∀ {a h}, d.NamesChar a → d.NamesChar h →
      d.charEndpoints (d.covering a h) = (a, h) := fun ha hh =>
    (charEndpoints_covering_eq_iff ha hh).2 (.inr (.inl hd))
  have hstep : ∀ sel₀ sel p, P sel₀ sel → p.line < d.lineCount →
      P sel₀ (s.moveHead d sel p) := by
    rintro sel₀ _ p ⟨⟨a, h, ha, hh, rfl⟩, hanchor⟩ -
    rw [hends ha hh] at hanchor
    simp only [P, State.moveHead, hs.mode, reduceCtorEq, ↓reduceIte, hends ha hh]
    refine ⟨⟨_, _, ha, namesChar_clampChar p, rfl⟩, ?_⟩
    rw [hends ha (namesChar_clampChar p)]
    exact hanchor
  refine (motions_keep settings ms hs.document (by rw [hs.mode]; rfl) (fun _ _ h => ?_) hstep
    (List.map_id _).symm fun sel hsel => ⟨hs.covers sel hsel, rfl⟩).mono
    (fun _ s' h => ?_) fun _ _ he => he
  · obtain ⟨⟨a, h, ha, hh, rfl⟩, -⟩ := h
    exact holds_covering (namesChar_iff.1 ha).1 (namesChar_iff.1 hh).1
  · obtain ⟨-, -, f, hsels, hP⟩ := h
    rw [hsels, List.map_map]
    exact List.map_congr_left fun sel hsel => (hP sel hsel).2

open Document in
/-- In a text that ends in a line break the way from the end to the start moves the anchor to the
last line break. -/
theorem motions_move_anchorChar (hd : d.EndsInBreak) (settings : Settings) :
    let s := State.single d .visual (d.covering ⟨d.lastLine, 0⟩ ⟨d.lastLine, 0⟩)
    (motions settings [Motion.toStart]).Ends s
      (fun _ s' => ¬ s'.selections.map (fun sel => (d.charEndpoints sel).1) =
        s.selections.map fun sel => (d.charEndpoints sel).1) fun _ _ => False := by
  intro s
  refine (motions_toStart settings rfl rfl).mono (fun _ s' hmoved hkept => ?_) fun _ _ he => he
  have hpos := (endsInBreak_iff.1 hd).1
  have hend := namesChar_lineStart (d := d) (i := d.lastLine) d.lastLine_lt
  have hself := charEndpoints_covering_self hend
  have hmode : ¬ s.mode = .visualLine := nofun
  have hsels : s.selections = [d.covering ⟨d.lastLine, 0⟩ ⟨d.lastLine, 0⟩] := rfl
  have hlines : (⟨d.lastLine, 0⟩ : Position) ≠ d.clampChar d.documentStart := by
    intro heq
    have hline : d.lastLine = (d.clampChar d.documentStart).line := congrArg Position.line heq
    rw [line_clampChar, clamp, documentStart, Nat.zero_min] at hline
    exact Nat.ne_of_gt hpos hline
  rw [hmoved, hsels] at hkept
  simp only [State.moveHead, hmode, ↓reduceIte, List.map_cons, List.map_nil, hself,
    charEndpoints_covering hend (namesChar_clampChar _), hlines, List.cons.injEq, and_true] at hkept
  have := (recalledChar_eq_iff hend).1 hkept
  simp [hd] at this

end Step

/-! ### Which documents keep what is selected -/

namespace Document

/-- **Which selections of lines are remembered**: those of one line, those that stay in front of the
last line, and all of them if and only if the text does not end in a line break. Just then no
motions in visual line mode move an anchor to another line, and just then some motions lead the head
of every selection to a given line with its anchor where it was. -/
theorem lineCovering_recalled_iff (d : Document) :
    (∀ a h, a < d.lineCount → h < d.lineCount →
      ((d.lineCovering a h).lineEndpoints = (a, h) ↔
        a = h ∨ ¬ d.EndsInBreak ∨ a < d.lastLine ∧ h < d.lastLine)) ∧
    ((∀ a h, a < d.lineCount → h < d.lineCount → (d.lineCovering a h).lineEndpoints = (a, h)) ↔
      ¬ d.EndsInBreak) ∧
    ((∀ settings s ms, s.SelectsLines d → (Step.motions settings ms).Ends s
        (fun _ s' => s'.selections.map (·.lineEndpoints.1) =
          s.selections.map (·.lineEndpoints.1)) fun _ _ => False) ↔ ¬ d.EndsInBreak) ∧
    ((∀ settings s i, s.SelectsLines d → i < d.lineCount →
        ∃ ms, (∀ m ∈ ms, m.1 ∈ Motion.defaults) ∧ (Step.motions settings ms).Ends s
          (fun _ s' => s'.selections.map (·.lineEndpoints) =
            s.selections.map fun sel => (sel.lineEndpoints.1, i)) fun _ _ => False) ↔
      ¬ d.EndsInBreak) := by
  have hlast := d.lastLine_add_one
  have hpoint : ∀ a h, a < d.lineCount → h < d.lineCount →
      ((d.lineCovering a h).lineEndpoints = (a, h) ↔
        a = h ∨ ¬ d.EndsInBreak ∨ a < d.lastLine ∧ h < d.lastLine) := fun a h ha hh =>
    lineEndpoints_lineCovering_eq_iff (by omega) (by omega)
  refine ⟨hpoint, ⟨fun h hd => ?_, fun hd a h ha hh => (hpoint a h ha hh).2 (.inr (.inl hd))⟩,
    ⟨fun h hd => ?_, fun hd settings s ms hs => Step.motions_keep_anchorLine hs hd settings ms⟩,
    fun h hd => ?_, fun hd settings s i hs hi => ⟨_, ?_, Step.motions_reach hs hd settings hi⟩⟩
  · have hpos := (endsInBreak_iff.1 hd).1
    have := (hpoint 0 d.lastLine (by omega) d.lastLine_lt).1 (h _ _ (by omega) d.lastLine_lt)
    simp only [hd, not_true, Nat.lt_irrefl, and_false, or_self, or_false] at this
    omega
  · exact (h {} _ _ (State.selectsLines_single d.lastLine_lt)).absurd
      (Step.motions_move_anchorLine hd {})
  · have hpos := (endsInBreak_iff.1 hd).1
    have hfirst := State.selectsLines_single (d := d) (i := 0) (by omega)
    obtain ⟨ms, -, hreach⟩ := h {} _ d.lastLine hfirst d.lastLine_lt
    exact hreach.absurd (Step.motions_miss_lastLine hd {} ms)
  · refine List.forall_mem_cons.2 ⟨List.mem_of_getElem? (i := 13) rfl, fun m hm => ?_⟩
    rw [List.eq_of_mem_replicate hm]
    exact List.mem_of_getElem? (i := 2) rfl

/-- The last line is empty. Moved up and down again from there, the selection is not the one it has
been. -/
theorem not_lineCovering_recalled :
    let d := ofText ['a', '\n']
    let selected (keys : List Key) :=
      (({} : Engine).handleKeys (.ofDocument d [⟨1, 0⟩]) keys).2.2.selections
    selected [.char 'V'] = [d.lineCovering 1 1] ∧
    selected [.char 'V', .char 'k'] = [d.lineCovering 1 0] ∧
    (d.lineCovering 1 0).lineEndpoints = (0, 0) ∧
    selected [.char 'V', .char 'k', .char 'j'] = [d.lineCovering 0 1] ∧
    d.lineCovering 0 1 ≠ d.lineCovering 1 1 := by
  intro d selected
  refine ⟨?_, ?_, by decide, ?_, by decide⟩ <;> decide +kernel

/-- **Which selections of characters are remembered**: those of one character, those that stay in
front of the last line, and all of them if and only if the text does not end in a line break. Just
then no motions in visual mode move an anchor to another character. -/
theorem covering_recalled_iff (d : Document) :
    (∀ a h, d.clampChar a = a → d.clampChar h = h →
      (d.charEndpoints (d.covering a h) = (a, h) ↔
        a = h ∨ ¬ d.EndsInBreak ∨ a.line < d.lastLine ∧ h.line < d.lastLine)) ∧
    ((∀ a h, d.clampChar a = a → d.clampChar h = h →
      d.charEndpoints (d.covering a h) = (a, h)) ↔ ¬ d.EndsInBreak) ∧
    ((∀ settings s ms, s.SelectsChars d → (Step.motions settings ms).Ends s
        (fun _ s' => s'.selections.map (fun sel => (d.charEndpoints sel).1) =
          s.selections.map fun sel => (d.charEndpoints sel).1) fun _ _ => False) ↔
      ¬ d.EndsInBreak) := by
  have hpoint : ∀ a h, d.clampChar a = a → d.clampChar h = h →
      (d.charEndpoints (d.covering a h) = (a, h) ↔
        a = h ∨ ¬ d.EndsInBreak ∨ a.line < d.lastLine ∧ h.line < d.lastLine) := fun a h ha hh =>
    charEndpoints_covering_eq_iff ha hh
  refine ⟨hpoint, ⟨fun h hd => ?_, fun hd a h ha hh => (hpoint a h ha hh).2 (.inr (.inl hd))⟩,
    fun h hd => ?_, fun hd settings s ms hs => Step.motions_keep_anchorChar hs hd settings ms⟩
  · have hpos := (endsInBreak_iff.1 hd).1
    have hstart := namesChar_lineStart (d := d) d.lineCount_pos
    have hend := namesChar_lineStart (d := d) d.lastLine_lt
    have := (hpoint _ _ hstart hend).1 (h _ _ hstart hend)
    simp only [hd, not_true, Nat.lt_irrefl, and_false, or_self, or_false, Position.mk.injEq,
      and_true] at this
    omega
  · exact (h {} _ _ (State.selectsChars_single (namesChar_lineStart d.lastLine_lt))).absurd
      (Step.motions_move_anchorChar hd {})

/-- The last line is empty. Moved up and down again from there, the selection begins with the break
in front of it. -/
theorem not_covering_recalled :
    let d := ofText ['a', '\n']
    let selected (keys : List Key) :=
      (({} : Engine).handleKeys (.ofDocument d [⟨1, 0⟩]) keys).2.2.selections
    d.clampChar ⟨1, 0⟩ = ⟨1, 0⟩ ∧ d.clampChar ⟨0, 0⟩ = ⟨0, 0⟩ ∧
    selected [.char 'v'] = [⟨⟨1, 0⟩, ⟨1, 0⟩⟩] ∧ d.covering ⟨1, 0⟩ ⟨1, 0⟩ = ⟨⟨1, 0⟩, ⟨1, 0⟩⟩ ∧
    selected [.char 'v', .char 'k'] = [⟨⟨1, 0⟩, ⟨0, 0⟩⟩] ∧
    d.covering ⟨1, 0⟩ ⟨0, 0⟩ = ⟨⟨1, 0⟩, ⟨0, 0⟩⟩ ∧
    d.charEndpoints (d.covering ⟨1, 0⟩ ⟨0, 0⟩) = (⟨0, 1⟩, ⟨0, 0⟩) ∧
    selected [.char 'v', .char 'k', .char 'j'] = [⟨⟨0, 1⟩, ⟨1, 0⟩⟩] := by
  intro d selected
  refine ⟨by decide, by decide, ?_, by decide, ?_, by decide, by decide, ?_⟩ <;> decide +kernel

end Document

end ModalEdit
