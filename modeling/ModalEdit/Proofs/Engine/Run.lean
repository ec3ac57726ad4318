import ModalEdit.Proofs.Action.Invariant
import ModalEdit.Proofs.Command.Guards

/-!
# Runs of keys

What one key keeps (`Engine.handleKey_leads`) every run of keys keeps (`Engine.handleKeys_leads`).
Two statements about runs from Normal mode follow, whatever the keys, the settings and the bindings
of the user are:

* `Engine.handleKeys_selections`: after every key there are selections, on lines that exist, and
  they look as the mode asks;
* `Engine.handleKeys_never_aborts`: with one cursor, wherever it is, no key ever fails, and every
  batch of edits on the way is legal.
-/

namespace ModalEdit

variable {rule : CursorRule} {d : Document}

/-- Offering keys to the actions of the mode leads to a sound state, unless the editor refuses. -/
theorem Keymap.offer_leads (k : Keymap) (settings : Settings) (keys : List Key) (waiting : Bool)
    {s : State} (hs : s.Sound rule d) (hk : ∀ a ∈ k, a.AtHome ∧ a.modes.has s.mode) :
    (k.offer settings keys waiting).Ends s (fun _ s' => ∃ edits, s.Leads rule d edits s')
      fun _ _ => s.Refuses := by
  induction k generalizing waiting with
  | nil => exact ⟨[], .refl hs⟩
  | cons a k ih =>
    obtain ⟨⟨ha, hmode⟩, hk⟩ := List.forall_mem_cons.1 hk
    simp only [offer, Step.ends_bind]
    refine ((a.leads settings keys ha hs hmode).and (a.frame settings keys s)).mono
      (fun r s' h => ?_) fun _ _ h => h.1
    cases r with
    | executed => exact ⟨_, h.1⟩
    | needsMore =>
      obtain rfl := h.2 (by decide)
      exact ih true hk
    | noMatch =>
      obtain rfl := h.2 (by decide)
      exact ih waiting hk

namespace Engine

/-- The state that commands work on. -/
def state (e : Engine) (ed : Editor) : State := ⟨ed, e.session⟩

/-- What a run of keys keeps: the actions, a sound state, how many selections there are at most, and
what the editor refuses. -/
structure Keeps (rule : CursorRule) (e : Engine) (ed : Editor) (e' : Engine) (ed' : Editor) :
    Prop where
  keymap : e'.keymap = e.keymap
  sound : ∃ d, (e'.state ed').Sound rule d
  length_le : ed'.selections.length ≤ ed.selections.length
  access : (e'.state ed').access = (e.state ed).access

theorem Keeps.refl {e : Engine} {ed : Editor} (hs : (e.state ed).Sound rule d) :
    Keeps rule e ed e ed :=
  ⟨rfl, ⟨d, hs⟩, Nat.le_refl _, rfl⟩

theorem Keeps.trans {e e' e'' : Engine} {ed ed' ed'' : Editor} (h : Keeps rule e ed e' ed')
    (h' : Keeps rule e' ed' e'' ed'') : Keeps rule e ed e'' ed'' :=
  ⟨h'.keymap.trans h.keymap, h'.sound, Nat.le_trans h'.length_le h.length_le,
    h'.access.trans h.access⟩

variable {e : Engine} {ed : Editor}

/-- The actions offered in the mode are at home. -/
theorem atHome_forMode {bs : List Binding} (hk : e.keymap = .withBindings bs) :
    ∀ a ∈ e.keymap.forMode e.session.mode, a.AtHome ∧ a.modes.has (e.state ed).mode := by
  intro a ha
  obtain ⟨ha, hmode⟩ := List.mem_filter.1 ha
  exact ⟨Keymap.atHome_withBindings bs a (hk ▸ ha), hmode⟩

/-- **What one key keeps.** It fails only if the editor refuses. -/
theorem handleKey_leads {bs : List Binding} (hk : e.keymap = .withBindings bs)
    (hs : (e.state ed).Sound rule d) (key : Key) :
    Keeps rule e ed (e.handleKey ed key).2.1 (e.handleKey ed key).2.2 ∧
      ((e.handleKey ed key).1 = .aborted → (e.state ed).Refuses) := by
  have hdoc : ed.document.isNone = false := by
    rw [show ed.document = some d from hs.document]
    rfl
  have hoffer := (e.keymap.forMode e.session.mode).offer_leads e.settings
    (e.session.pending ++ [key]) false hs (atHome_forMode hk)
  have hframe := (e.keymap.forMode e.session.mode).frame e.settings
    (e.session.pending ++ [key]) false (e.state ed)
  simp only [handleKey, hdoc, Bool.false_eq_true, ↓reduceIte]
  cases h : (e.keymap.forMode e.session.mode).offer e.settings (e.session.pending ++ [key]) false
      ⟨ed, e.session⟩ with
  | ok o s' =>
    obtain ⟨edits, ⟨after, plan, -, hs'⟩, hlen, haccess⟩ := hoffer.of_ok h
    cases o with
    | executed action => exact ⟨⟨rfl, ⟨after, hs'.congr rfl rfl rfl⟩, hlen, haccess⟩, by simp⟩
    | declined waiting =>
      cases waiting <;> exact ⟨⟨rfl, ⟨after, hs'.congr rfl rfl rfl⟩, hlen, haccess⟩, by simp⟩
  | error c s' =>
    refine ⟨?_, fun _ => hoffer.of_error h⟩
    rcases hframe.of_error h with rfl | ⟨-, rfl⟩
    · exact .refl hs
    · refine ⟨rfl, ⟨d, hs.congr (State.document_syncRegisters _)
        (State.selections_syncRegisters _) (State.mode_syncRegisters _)⟩, ?_,
        State.access_syncRegisters _⟩
      exact Nat.le_of_eq (congrArg List.length (State.selections_syncRegisters (e.state ed)))

/-- **What a run of keys keeps.** A key fails only if the editor refuses. -/
theorem handleKeys_leads {bs : List Binding} (hk : e.keymap = .withBindings bs)
    (hs : (e.state ed).Sound rule d) (keys : List Key) :
    Keeps rule e ed (e.handleKeys ed keys).2.1 (e.handleKeys ed keys).2.2 ∧
      (.aborted ∈ (e.handleKeys ed keys).1 → (e.state ed).Refuses) := by
  induction keys generalizing e ed d with
  | nil => exact ⟨.refl hs, nofun⟩
  | cons key keys ih =>
    obtain ⟨hkey, habort⟩ := handleKey_leads hk hs key
    obtain ⟨d', hs'⟩ := hkey.sound
    obtain ⟨hkeys, haborts⟩ := ih (hkey.keymap.trans hk) hs'
    refine ⟨hkey.trans hkeys, fun h => ?_⟩
    rcases List.mem_cons.1 h with h | h
    · exact habort h.symm
    · rcases haborts h with hrefuses | hmany
      · exact .inl (hkey.access ▸ hrefuses)
      · exact .inr (Nat.lt_of_lt_of_le hmany hkey.length_le)

/-! ### Several cursors -/

/-- What the selections of a mode are like in a document. -/
structure Shows (d : Document) (m : Mode) (sels : List Selection) : Prop where
  /-- There is a selection. -/
  ne_nil : sels ≠ []
  /-- Both ends of every selection are on lines that exist. -/
  lines : ∀ sel ∈ sels, sel.anchor.line < d.lineCount ∧ sel.active.line < d.lineCount
  /-- In Normal mode and in Insert mode the selections are cursors, each of them once. -/
  cursors : m = .normal ∨ m = .insert → (∀ sel ∈ sels, sel.anchor = sel.active) ∧ sels.Nodup
  /-- Outside Normal mode no end lies past the end of its line. -/
  columns : m ≠ .normal → ∀ sel ∈ sels, sel.anchor.col ≤ d.lineLen sel.anchor.line ∧
    sel.active.col ≤ d.lineLen sel.active.line
  /-- In visual line mode every selection covers whole lines. -/
  covers : m = .visualLine → ∀ sel ∈ sels, ∃ anchor head, anchor < d.lineCount ∧
    head < d.lineCount ∧ sel = d.lineCovering anchor head

theorem shows_of_sound {s : State} (hs : s.Sound .onLine d) : Shows d s.mode s.selections where
  ne_nil := hs.ne_nil
  lines sel hsel := by
    by_cases hm : s.mode = .normal
    · have hcursor := hs.suits sel hsel
      rw [hm] at hcursor
      exact ⟨hcursor.1 ▸ hcursor.2, hcursor.2⟩
    · have hholds := hs.holds hm hsel
      exact ⟨hholds.1.1, hholds.2.1⟩
  cursors hm := by
    refine ⟨fun sel hsel => ?_, hs.nodup ?_⟩
    · have hcursor := hs.suits sel hsel
      rcases hm with hm | hm <;> rw [hm] at hcursor <;> exact hcursor.1
    · rcases hm with hm | hm <;> rw [hm] <;> rfl
  columns hm sel hsel := by
    have hholds := hs.holds hm hsel
    exact ⟨hholds.1.2, hholds.2.2⟩
  covers hm sel hsel := by
    have hlines := hs.suits sel hsel
    rwa [hm] at hlines

/-- Different cursors in bounds are sound in Normal mode. -/
theorem sound_of_cursors_inBounds (hmode : e.session.mode = .normal)
    (hdoc : ed.document = some d) (hne : ed.selections ≠ []) (hnodup : ed.selections.Nodup)
    (hcursors : ∀ sel ∈ ed.selections, sel.anchor = sel.active ∧ d.InBounds sel.active) :
    (e.state ed).Sound rule d := by
  refine ⟨hdoc, hne, fun sel hsel => ?_, fun _ => hnodup⟩
  change sel.Suits rule d e.session.mode
  rw [hmode]
  exact ⟨(hcursors sel hsel).1, rule.of_inBounds (hcursors sel hsel).2⟩

/-- **The selections of a session.** From Normal mode with different cursors in bounds, whatever
keys follow, there are selections, on lines that exist, and they are as the mode asks. -/
theorem handleKeys_selections (e : Engine) (ed : Editor) (d : Document) (bs : List Binding)
    (keys : List Key) (hk : e.keymap = .withBindings bs) (hmode : e.session.mode = .normal)
    (hdoc : ed.document = some d) (hne : ed.selections ≠ []) (hnodup : ed.selections.Nodup)
    (hcursors : ∀ sel ∈ ed.selections, sel.anchor = sel.active ∧ d.InBounds sel.active) :
    match e.handleKeys ed keys with
    | (_, e', ed') => ∃ d', ed'.document = some d' ∧ Shows d' e'.session.mode ed'.selections := by
  have hs : (e.state ed).Sound .onLine d := by
    refine ⟨hdoc, hne, fun sel hsel => ?_, fun _ => hnodup⟩
    change sel.Suits .onLine d e.session.mode
    rw [hmode]
    exact ⟨(hcursors sel hsel).1, (hcursors sel hsel).2.1⟩
  obtain ⟨d', hs'⟩ := (handleKeys_leads hk hs keys).1.sound
  exact ⟨d', hs'.document, shows_of_sound hs'⟩

/-- Two cursors, and the keys that select lines and extend the selections by one line. -/
theorem handleKeys_selections_visualLine :
    let e : Engine := {}
    let ed := Editor.ofDocument (.ofText ['a', 'b', '\n', 'c', 'd', '\n', 'e']) [⟨0, 1⟩, ⟨1, 0⟩]
    e.keymap = .withBindings [] ∧ e.session.mode = .normal ∧ ed.selections ≠ [] ∧
    ed.selections.Nodup ∧
    match e.handleKeys ed [.char 'V', .char 'j'] with
    | (_, e', ed') => e'.session.mode = .visualLine ∧
      ∃ d', ed'.document = some d' ∧ Shows d' .visualLine ed'.selections := by
  intro e ed
  have hmode : (e.handleKeys ed [.char 'V', .char 'j']).2.1.session.mode = .visualLine := by rfl
  have h := handleKeys_selections e ed (.ofText ['a', 'b', '\n', 'c', 'd', '\n', 'e']) []
    [.char 'V', .char 'j'] rfl rfl rfl (by decide) (by decide) (by decide)
  refine ⟨rfl, rfl, by decide, by decide, ?_⟩
  generalize e.handleKeys ed [.char 'V', .char 'j'] = out at hmode h
  obtain ⟨outcomes, e', ed'⟩ := out
  obtain ⟨d', hdoc, hshows⟩ := h
  exact ⟨hmode, d', hdoc, hmode ▸ hshows⟩

/-! ### One cursor -/

/-- With one selection and an editor that accepts everything, an action of the mode does not fail:
its batch is legal, and it is what becomes of the document. -/
theorem answer_of_sound {s : State} (hs : s.Sound rule d) (haccess : s.access = (false, false))
    (hone : s.selections.length = 1) {a : Action} (ha : a.AtHome) (hmode : a.modes.has s.mode)
    (settings : Settings) (keys : List Key) :
    d.Legal (a.edits settings d keys s) ∧
      ∃ reply s' after plan, a.answer settings keys s = .ok reply s' ∧
        d.edit (a.edits settings d keys s) = .ok (after, plan) ∧
        s'.editor.document = some after := by
  have hlegal : d.Legal (a.edits settings d keys s) :=
    Document.legal_of_length_le_one (fun e => a.fits_edits settings keys ha hs hmode)
      (hone ▸ a.length_edits_le settings keys)
  have hleads := a.leads settings keys ha hs hmode
  refine ⟨hlegal, ?_⟩
  cases h : a.answer settings keys s with
  | ok reply s' =>
    obtain ⟨⟨after, plan, hedit, hs'⟩, -, -⟩ := hleads.of_ok h
    exact ⟨reply, s', after, plan, rfl, hedit, hs'.document⟩
  | error c s' =>
    rcases hleads.of_error h with hrefuses | hmany
    · exact absurd haccess hrefuses
    · omega

/-- **One cursor never fails.** From Normal mode with one cursor, in the document or not, no key is
aborted. Whatever key comes next, every action that is offered answers it, its batch of edits is
legal, and the batch is what becomes of the document; nothing computed on the way is undefined. -/
theorem handleKeys_never_aborts (e : Engine) (ed : Editor) (d : Document) (bs : List Binding)
    (p : Position) (keys : List Key) (hk : e.keymap = .withBindings bs)
    (hmode : e.session.mode = .normal) (hdoc : ed.document = some d)
    (hsels : ed.selections = [.cursor p]) (hreadonly : ed.readonly = false)
    (hrefusing : ed.refusing = false) :
    match e.handleKeys ed keys with
    | (outcomes, e', ed') => .aborted ∉ outcomes ∧ ∃ d', ed'.document = some d' ∧ d'.Guarded ∧
      ∀ key, ∀ a ∈ e'.keymap.forMode e'.session.mode,
        let offered := e'.session.pending ++ [key]
        let edits := a.edits e'.settings d' offered (e'.state ed')
        d'.Legal edits ∧ ∃ reply s' after plan,
          a.answer e'.settings offered (e'.state ed') = .ok reply s' ∧
          d'.edit edits = .ok (after, plan) ∧ s'.editor.document = some after := by
  have hs : (e.state ed).Sound .anywhere d := by
    refine ⟨hdoc, by simp [state, State.selections, hsels], fun sel hsel => ?_, fun _ => ?_⟩
    · change sel.Suits .anywhere d e.session.mode
      have hsel : sel ∈ ed.selections := hsel
      rw [hsels, List.mem_singleton] at hsel
      rw [hmode, hsel]
      exact ⟨rfl, trivial⟩
    · simp [state, State.selections, hsels]
  have haccess : (e.state ed).access = (false, false) := by
    simp [state, State.access, hreadonly, hrefusing]
  have hone : ed.selections.length = 1 := by simp [hsels]
  obtain ⟨hkeeps, haborts⟩ := handleKeys_leads hk hs keys
  obtain ⟨d', hs'⟩ := hkeeps.sound
  refine ⟨fun h => ?_, d', hs'.document, d'.guarded, fun key a ha => ?_⟩
  · rcases haborts h with hrefuses | hmany
    · exact hrefuses haccess
    · have : 1 < ed.selections.length := hmany
      omega
  · obtain ⟨hhome, hoffered⟩ := atHome_forMode (hkeeps.keymap.trans hk) a ha
    have hpos := hs'.length_pos
    have hle := hkeeps.length_le
    refine answer_of_sound hs' (hkeeps.access.trans haccess) ?_ hhome hoffered _ _
    change (e.handleKeys ed keys).2.2.selections.length = 1
    change 0 < (e.handleKeys ed keys).2.2.selections.length at hpos
    omega

/-- A cursor outside the text, and keys that delete its line and paste what they have deleted. -/
theorem handleKeys_never_aborts_outside :
    let e : Engine := {}
    let ed := Editor.ofDocument (.ofText ['a', '\n', 'b']) [⟨5, 9⟩]
    e.keymap = .withBindings [] ∧ e.session.mode = .normal ∧ ed.selections = [.cursor ⟨5, 9⟩] ∧
    ed.readonly = false ∧ ed.refusing = false ∧
    .aborted ∉ (e.handleKeys ed [.char 'd', .char 'd', .char 'p']).1 :=
  ⟨rfl, rfl, rfl, rfl, rfl,
    (handleKeys_never_aborts {} (.ofDocument (.ofText ['a', '\n', 'b']) [⟨5, 9⟩])
      (.ofText ['a', '\n', 'b']) [] ⟨5, 9⟩ [.char 'd', .char 'd', .char 'p'] rfl rfl rfl rfl rfl
      rfl).1⟩

end Engine

end ModalEdit
