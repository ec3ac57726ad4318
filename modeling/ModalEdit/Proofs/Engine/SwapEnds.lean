import ModalEdit.Proofs.Engine.VisualOperator
import ModalEdit.Proofs.Selection.Swap

/-!
# Exchanging the ends of the selections

In the visual modes `o` takes the head of every selection to its other end. It reads the characters
or the lines back from the selection and covers them the other way round, and the piece stays the
same for every selection that a run of keys can lead to, with one exception: where a text object has
found nothing, as between two brackets, visual mode goes on with a selection of nothing, and this
comes out covering the character behind it (`State.range_swap`).

As long as no selection is widened an operator does the same after `o` as without it
(`Engine.handleKeys_swapEnds`).
-/

namespace ModalEdit

variable {d : Document} {s : State} {sel : Selection}

namespace State

/-- The selection with its ends exchanged, as characters or as lines. -/
def swap (s : State) (d : Document) (sel : Selection) : Selection :=
  if s.mode = .visualLine then d.swapLines sel else d.swapChars sel

theorem swapEnds_eq (s : State) (d : Document) :
    s.swapEnds d = s.select (s.selections.map (s.swap d)) := rfl

variable {rule : CursorRule}

/-- Characters are exchanged in visual mode and lines in visual line mode. -/
theorem swap_cases (hs : s.Sound rule d) (hmode : s.mode.isVisual = true)
    (hsel : sel ∈ s.selections) :
    (s.mode = .visual ∧ d.Holds sel ∧ s.swap d sel = d.swapChars sel) ∨
      (s.mode = .visualLine ∧ d.CoversLines sel ∧ s.swap d sel = d.swapLines sel) := by
  have hsuits := hs.suits sel hsel
  unfold swap
  cases hm : s.mode with
  | visual =>
    rw [hm] at hsuits
    exact .inl ⟨rfl, hsuits, rfl⟩
  | visualLine =>
    rw [hm] at hsuits
    exact .inr ⟨rfl, hsuits, rfl⟩
  | normal | insert =>
    rw [hm] at hmode
    cases hmode

/-- **What exchanging the ends does to the piece**: nothing, unless nothing is selected. -/
theorem range_swap (hs : s.Sound rule d) (hmode : s.mode.isVisual = true)
    (hsel : sel ∈ s.selections) :
    (s.swap d sel).range =
      if s.mode = .visual ∧ sel.isEmpty then ⟨sel.active, d.stepForward sel.active, none⟩
      else sel.range := by
  rcases swap_cases hs hmode hsel with ⟨hm, hholds, hswap⟩ | ⟨hm, hcovers, hswap⟩
  · simp only [hswap, Document.range_swapChars hholds, hm, true_and]
  · simp only [hswap, Document.range_swapLines hcovers, hm, reduceCtorEq, false_and, ↓reduceIte]

/-- The piece stays unless the selection is widened. -/
theorem range_swap_eq_iff (hs : s.Sound rule d) (hmode : s.mode.isVisual = true)
    (hsel : sel ∈ s.selections) :
    (s.swap d sel).range = sel.range ↔ ¬ (s.mode = .visual ∧ d.Widens sel) := by
  rcases swap_cases hs hmode hsel with ⟨hm, hholds, hswap⟩ | ⟨hm, hcovers, hswap⟩
  · rw [hswap, Document.range_swapChars_eq_iff hholds, hm]
    simp only [true_and]
  · rw [hswap, Document.range_swapLines hcovers, hm]
    simp only [reduceCtorEq, false_and, not_false_eq_true]

theorem ranges_swap_eq_iff (hs : s.Sound rule d) (hmode : s.mode.isVisual = true) :
    (s.selections.map (s.swap d)).map (·.range) = s.selections.map (·.range) ↔
      ¬ (s.mode = .visual ∧ ∃ sel ∈ s.selections, d.Widens sel) := by
  rw [List.map_map, List.map_inj_left, not_and, not_exists]
  constructor
  · rintro h hvisual sel ⟨hsel, hwidens⟩
    exact (range_swap_eq_iff hs hmode hsel).1 (h sel hsel) ⟨hvisual, hwidens⟩
  · intro h sel hsel
    refine (range_swap_eq_iff hs hmode hsel).2 ?_
    rintro ⟨hvisual, hwidens⟩
    exact h hvisual sel ⟨hsel, hwidens⟩

end State

/-! ### Keys -/

namespace Engine

variable {e : Engine} {ed : Editor}

/-- The key that exchanges the ends. -/
theorem handleKey_swapEnds (hkeymap : e.keymap = .builtin)
    (hmode : e.session.mode.isVisual = true) (hpending : e.session.pending = [])
    (hdoc : ed.document = some d) :
    e.handleKey ed (.char 'o') = (.executed "visual-swap-ends", e,
      ed.select (ed.selections.map ((e.state ed).swap d))) := by
  have hmem : (.char 'o', Keymap.onChar "visual-swap-ends" .anyVisual 'o' .swapEnds) ∈
      Keymap.visualKeys.zip Keymap.visualFront := List.mem_of_getElem? (i := 3) rfl
  have hanswer : ((Keymap.onChar "visual-swap-ends" .anyVisual 'o' .swapEnds).answer e.settings
      [.char 'o']).Ends (e.state ed) (fun r s' => r = .executed ∧ s' = (e.state ed).swapEnds d)
      fun _ _ => False := by
    refine Action.ends_command hdoc (Pattern.parse_ofChar 'o' []) ?_
    rw [Command.run, Step.ends_modify]
  have hoffer : ((e.keymap.forMode e.session.mode).offer e.settings
      (e.session.pending ++ [.char 'o']) false).Ends (e.state ed)
      (fun r s' => r = .executed "visual-swap-ends" ∧ s' = (e.state ed).swapEnds d)
      fun _ _ => False := by
    rw [hpending, List.nil_append, hkeymap, Keymap.forMode_of_isVisual hmode]
    exact Keymap.ends_offer_visualFront [] hmem
      (hanswer.mono (fun _ _ hr => ⟨hr.1, rfl, hr.2⟩) fun _ _ h => h)
  obtain ⟨_, rfl, hkey⟩ := handleKey_of_executed (Q := (· = (e.state ed).swapEnds d)) hdoc hoffer
  rw [hkey, State.swapEnds_eq, ← hpending]
  rfl

/-- The key of an operator runs it on the selections, or it fails. -/
theorem handleKey_visualOperator (kind : OperatorKind) (hkeymap : e.keymap = .builtin)
    (hmode : e.session.mode.isVisual = true) (hpending : e.session.pending = [])
    (hdoc : ed.document = some d) :
    e.handleKey ed kind.key =
      match Step.operate e.settings d kind (e.state ed) with
      | .ok _ s => (.executed ("visual-" ++ kind.name),
          e.withSession { s.session with pending := [] }, s.editor)
      | .error _ s => (.aborted, e.withSession s.session, s.editor) := by
  -- The offer ends as the operator does, well or not.
  have hoperate : (Step.operate e.settings d kind).Ends (e.state ed)
      (fun _ t => Step.operate e.settings d kind (e.state ed) = .ok () t)
      fun c t => Step.operate e.settings d kind (e.state ed) = .error c t := by
    unfold Step.Ends
    split <;> assumption
  have hoffer := Keymap.ends_offer_visual kind [] hdoc hoperate
  rw [← Keymap.forMode_of_isVisual hmode, ← hkeymap] at hoffer
  have hsome : ed.document.isNone = false := by rw [hdoc]; rfl
  simp only [handleKey, hsome, Bool.false_eq_true, ↓reduceIte, hpending, List.nil_append]
  cases h : (e.keymap.forMode e.session.mode).offer e.settings [kind.key] false ⟨ed, e.session⟩ with
  | ok o t =>
    obtain ⟨rfl, hrun⟩ := hoffer.of_ok h
    rw [hrun]
  | error c t =>
    rw [hoffer.of_error h]

/-- The key of the operator does the same in either editor: it has the same outcome and leads to the
same engine, so to the same mode and the same registers, and to the same editor, unless it fails and
leaves both as they were. -/
def OperatesAlike (e : Engine) (ed ed' : Editor) (kind : OperatorKind) : Prop :=
  let r := e.handleKey ed kind.key
  let r' := e.handleKey ed' kind.key
  r'.1 = r.1 ∧ r'.2.1 = r.2.1 ∧
    (r'.2.2 = r.2.2 ∨ r.1 = .aborted ∧ r.2.2 = ed ∧ r'.2.2 = ed')

/-- **On other selections of the same ranges an operator does the same.** -/
theorem operatesAlike_showing (hkeymap : e.keymap = .builtin)
    (hmode : e.session.mode.isVisual = true) (hpending : e.session.pending = [])
    (hdoc : ed.document = some d) (hne : ed.selections ≠ []) {f : Selection → Selection}
    (hrange : ∀ sel ∈ ed.selections, (f sel).range = sel.range) (shown : Option Position)
    (kind : OperatorKind) : e.OperatesAlike ed (ed.showing (ed.selections.map f) shown) kind := by
  let ed' := ed.showing (ed.selections.map f) shown
  have hopen : ed'.document = some d := hdoc
  have halike : Step.EndAlike (Step.operate e.settings d kind) (Step.operate e.settings d kind)
      (e.state ed) (e.state ed') (fun _ t t' => t' = t.withPending e.session.pending)
      fun _ _ => True :=
    Step.operate_endAlike e.settings kind shown e.session.pending hne hdoc hrange
  have hatomic := Step.atomic_operate (s := e.state ed) hdoc e.settings kind
  have hatomic' := Step.atomic_operate (s := e.state ed') hopen e.settings kind
  unfold OperatesAlike
  rw [handleKey_visualOperator kind hkeymap hmode hpending hdoc,
    handleKey_visualOperator kind hkeymap hmode hpending hopen]
  rcases (halike.and_ends hatomic hatomic').cases with
    ⟨_, t, _, hrun, hrun', rfl, -⟩ | ⟨c, _, _, hrun, hrun', -, _, rfl, rfl⟩
  · rw [hrun, hrun']
    exact ⟨rfl, rfl, .inl rfl⟩
  · rw [hrun, hrun']
    exact ⟨rfl, rfl, .inr ⟨rfl, rfl, rfl⟩⟩

/-- **Exchanging the ends keeps the pieces selected**, for every text and in every state of a visual
mode to which keys lead from Normal mode with different cursors in bounds: the engine and the rest
of the editor stay as they are, and so does the range of every selection that holds something. They
all stay if and only if in visual mode no selection is nothing with a character behind it, and then
an operator does the same as without the key. -/
theorem handleKeys_swapEnds (e : Engine) (ed : Editor) (d : Document) (keys : List Key)
    (hkeymap : e.keymap = .builtin) (hmode : e.session.mode = .normal)
    (hdoc : ed.document = some d) (hne : ed.selections ≠ []) (hnodup : ed.selections.Nodup)
    (hcursors : ∀ sel ∈ ed.selections, sel.anchor = sel.active ∧ d.InBounds sel.active) :
    match e.handleKeys ed keys with
    | (_, e', ed') => e'.session.mode.isVisual = true → e'.session.pending = [] →
      ∃ d' sels shown, ed'.document = some d' ∧
        e'.handleKey ed' (.char 'o') =
          (.executed "visual-swap-ends", e', ed'.showing sels shown) ∧
        sels.map (·.range) = ed'.selections.map (fun sel =>
          if e'.session.mode = .visual ∧ sel.isEmpty then
            ⟨sel.active, d'.stepForward sel.active, none⟩
          else sel.range) ∧
        (sels.map (·.range) = ed'.selections.map (·.range) ↔
          ¬ (e'.session.mode = .visual ∧ ∃ sel ∈ ed'.selections, d'.Widens sel)) ∧
        (sels.map (·.range) = ed'.selections.map (·.range) →
          ∀ kind, e'.OperatesAlike ed' (ed'.showing sels shown) kind) := by
  have hs : (e.state ed).Sound .onLine d :=
    sound_of_cursors_inBounds hmode hdoc hne hnodup hcursors
  have hbuiltin : e.keymap = .withBindings [] := hkeymap
  have hkeeps := (handleKeys_leads hbuiltin hs keys).1
  generalize e.handleKeys ed keys = out at hkeeps ⊢
  obtain ⟨_, e', ed'⟩ := out
  intro hvisual hpending
  obtain ⟨d', hs'⟩ : ∃ d', (e'.state ed').Sound .onLine d' := hkeeps.sound
  have hkeymap' : e'.keymap = .builtin := hkeeps.keymap.trans hkeymap
  have hdoc' : ed'.document = some d' := hs'.document
  have hswap := handleKey_swapEnds hkeymap' hvisual hpending hdoc'
  refine ⟨d', _, _, hdoc', hswap, ?_, State.ranges_swap_eq_iff hs' hvisual, ?_⟩
  · rw [List.map_map]
    exact List.map_congr_left fun sel hsel => State.range_swap hs' hvisual hsel
  · intro hsame
    rw [List.map_map, List.map_inj_left] at hsame
    exact operatesAlike_showing hkeymap' hvisual hpending hdoc' hs'.ne_nil hsame _

/-- Two lines selected from the empty last line upwards. The last line is not among those that are
read back, but what is selected stays. -/
theorem handleKeys_swapEnds_lastLine :
    let d := Document.ofText ['a', 'b', '\n', 'c', 'd', '\n']
    let ed := Editor.ofDocument d [⟨2, 0⟩]
    let e : Engine := {}
    e.keymap = .builtin ∧ e.session.mode = .normal ∧ ed.selections ≠ [] ∧ ed.selections.Nodup ∧
    (∀ sel ∈ ed.selections, sel.anchor = sel.active ∧ d.InBounds sel.active) ∧
    match e.handleKeys ed [.char 'V', .char 'k'] with
    | (_, e', ed') => e'.session.mode = .visualLine ∧ e'.session.pending = [] ∧
      ed'.selections = [⟨⟨2, 0⟩, ⟨1, 0⟩⟩] ∧
      ∃ sels shown, e'.handleKey ed' (.char 'o') =
          (.executed "visual-swap-ends", e', ed'.showing sels shown) ∧
        sels.map (·.range) = ed'.selections.map (·.range) ∧
        ∀ kind, e'.OperatesAlike ed' (ed'.showing sels shown) kind := by
  intro d ed e
  have hcursors : ∀ sel ∈ ed.selections, sel.anchor = sel.active ∧ d.InBounds sel.active := by
    decide
  have hmode : (e.handleKeys ed [.char 'V', .char 'k']).2.1.session.mode = .visualLine := by rfl
  have hpending : (e.handleKeys ed [.char 'V', .char 'k']).2.1.session.pending = [] := by rfl
  have hsels : (e.handleKeys ed [.char 'V', .char 'k']).2.2.selections =
      [⟨⟨2, 0⟩, ⟨1, 0⟩⟩] := by decide +kernel
  have h := handleKeys_swapEnds e ed d [.char 'V', .char 'k'] rfl rfl rfl (by decide) (by decide)
    hcursors
  refine ⟨rfl, rfl, by decide, by decide, hcursors, ?_⟩
  generalize e.handleKeys ed [.char 'V', .char 'k'] = out at hmode hpending hsels h
  obtain ⟨_, e', ed'⟩ := out
  obtain ⟨d', sels, shown, -, hkey, -, hsame, halike⟩ := h (by rw [hmode]; rfl) hpending
  have hranges := hsame.2 fun hwidens => by
    rw [hmode] at hwidens
    cases hwidens.1
  exact ⟨hmode, hpending, hsels, sels, shown, hkey, hranges, halike hranges⟩

/-- **A selection of nothing is widened.** Between two brackets the text object finds nothing.
Without the key an operator takes nothing, with it the closing bracket. -/
theorem not_handleKeys_swapEnds :
    let d := Document.ofText ['(', ')']
    let ed := Editor.ofDocument d [⟨0, 0⟩]
    let e : Engine := {}
    let object : List Key := ['v', 'i', '('].map .char
    match e.handleKeys ed object with
    | (_, e', ed') => e'.session.mode = .visual ∧ e'.session.pending = [] ∧
      ed'.selections.map (·.range) = [⟨⟨0, 1⟩, ⟨0, 1⟩, none⟩] ∧
      (e'.handleKey ed' (.char 'o')).2.2.selections.map (·.range) = [⟨⟨0, 1⟩, ⟨0, 2⟩, none⟩] ∧
      (e'.handleKey ed' (.char 'd')).2.2.document.map (·.text) = some ['(', ')'] ∧
      (e'.handleKeys ed' [.char 'o', .char 'd']).2.2.document.map (·.text) = some ['('] := by
  intro d ed e object
  decide +kernel

end Engine

end ModalEdit
