import ModalEdit.Proofs.Command.Rest
import ModalEdit.Proofs.Engine.Run

/-!
# Cursors at rest

In Normal mode a walk up or down keeps the column and may leave a cursor past the end of its line.
Nothing else does: every other action that ends in Normal mode, from whatever mode, leaves all
cursors at rest in the document it leaves behind (`Action.rests`), and so does every run of keys in
which no such walk is taken (`Engine.handleKeys_rests`).
-/

namespace ModalEdit

variable {s : State} {d : Document} {pl : Placement} {settings : Settings}

/-! ### Actions -/

theorem OperatorKind.compose_rests (hs : s.AtRest settings.placement)
    (hd : s.editor.document = some d) (kind : OperatorKind) (keys : List Key) :
    (kind.compose settings d keys).Ends s (fun _ s' => s'.AtRest settings.placement)
      fun _ _ => True := by
  simp only [compose, Step.ends_bind, Step.ends_get]
  split
  · simp only [Step.ends_bind, Step.ends_modify, Step.ends_pure]
    exact (Step.apply_rests hd kind _ false).mono (fun _ _ h => h.congr rfl rfl rfl)
      fun _ _ h => h
  · exact hs

/-- The heads of selections move within the visual modes. -/
theorem Step.extend_rests (hs : s.AtRest pl) (hd : s.editor.document = some d)
    (hmode : s.mode ≠ .normal) (m : Motion) (keys : List Key) :
    (extend d m keys).Ends s (fun _ s' => s'.AtRest pl) fun _ _ => True := by
  simp only [extend, ends_bind, ends_get]
  split
  · exact hs
  · split
    · exact State.atRest_of_mode hd hmode
    · exact hs

theorem Step.selectObject_rests (hs : s.AtRest pl) (hd : s.editor.document = some d)
    (hmode : s.mode ≠ .normal) (keys : List Key) :
    (selectObject d keys).Ends s (fun _ s' => s'.AtRest pl) fun _ _ => True := by
  simp only [selectObject, ends_bind, ends_get]
  split
  · simp only [ends_bind, ends_modify]
    split
    · exact State.atRest_of_mode hd (by simp)
    · exact State.atRest_of_mode hd hmode
  · split <;> exact hs

/-- A motion that gives up the column places the cursors; one that leads nowhere leaves them. -/
theorem Step.moveCursors_rests (hs : s.AtRest settings.placement) (hd : s.editor.document = some d)
    (hmode : s.mode = .normal) (m : Motion) (hm : m.walk.keepsColumn = false) (keys : List Key) :
    (moveCursors settings d m keys).Ends s (fun _ s' => s'.AtRest settings.placement)
      fun _ _ => True := by
  simp only [moveCursors, ends_bind, ends_get, hm]
  split
  · exact hs
  · split
    · refine State.atRest_of_cursors hd rfl fun p hp => ?_
      simp only [State.arrivals, List.map_map, List.mem_map, Function.comp_apply] at hp
      obtain ⟨sel, hsel, rfl⟩ := hp
      cases (m.compute d ⟨s.session.lastFind, false⟩ sel.active keys).result? with
      | some a => exact settings.placement.clamp_clamp _
      | none =>
        obtain ⟨d', hd', hs⟩ := hs
        obtain rfl : d = d' := Option.some.inj (hd.symm.trans hd')
        exact (hs hmode sel hsel).2
    · exact hs

/-- The call moves the cursors up or down. -/
def Call.KeepsColumn : Call → Prop
  | move m _ => m.walk.keepsColumn = true
  | _ => False

/-- What is called leaves the cursors of Normal mode at rest, unless it moves them up or down. -/
theorem Call.rests (c : Call) (hs : s.AtRest settings.placement) (hc : c.Belongs s.mode)
    (hlevel : s.mode = .normal → ¬ c.KeepsColumn) :
    (c.run settings).Ends s (fun _ s' => s'.AtRest settings.placement) fun _ _ => True := by
  have hopen {go : Document → Step Reply} (h : ∀ d, s.editor.document = some d →
      (go d).Ends s (fun _ s' => s'.AtRest settings.placement) fun _ _ => True) :
      (Step.withDocument go).Ends s (fun _ s' => s'.AtRest settings.placement) fun _ _ => True :=
    Step.ends_withDocument.2 ⟨h, fun _ => trivial⟩
  have hvisual (h : s.mode.isVisual = true) : s.mode ≠ .normal := fun hm => by
    simp [hm, Mode.isVisual] at h
  cases c with
  | command c key =>
    refine hopen fun d hd => ?_
    rw [Step.ends_bind]
    refine c.rests key hs hd fun h => ?_
    subst h
    exact ModeSet.isVisual_of_anyVisual hc
  | type t =>
    refine hopen fun d hd => ?_
    rw [Step.ends_bind]
    exact Step.type_rests hd hc t
  | operate kind =>
    refine hopen fun d hd => ?_
    rw [Step.ends_bind, Step.operate, Step.ends_bind]
    exact Step.apply_rests hd kind _ true
  | selectObject keys => exact hopen fun d hd => Step.selectObject_rests hs hd (hvisual hc) keys
  | shorthand kind object =>
    refine hopen fun d hd => ?_
    rw [Step.ends_bind]
    refine (OperatorKind.compose_rests hs hd kind object).mono (fun r s' h => ?_) fun _ _ h => h
    split
    · obtain ⟨d', hd', -⟩ := h
      exact State.atRest_of_mode (d := d') hd' (by simp)
    · exact h
  | compose kind keys => exact hopen fun d hd => OperatorKind.compose_rests hs hd kind keys
  | move m keys =>
    refine hopen fun d hd => ?_
    rw [Step.ends_bind, Step.ends_get]
    split
    · exact Step.extend_rests hs hd (hvisual ‹_›) m keys
    · have hnormal := hc.resolve_left ‹_›
      refine Step.moveCursors_rests hs hd hnormal m ?_ keys
      exact Bool.eq_false_iff.2 (hlevel hnormal)
  | execute b =>
    rw [run, Step.ends_bind, Step.ends_execute]
    exact ⟨fun _ => hs.congr rfl rfl rfl, fun _ => trivial⟩

/-- The motions up and down go by these names. -/
theorem Motion.name_of_keepsColumn {m : Motion} (hm : m ∈ Motion.defaults)
    (h : m.walk.keepsColumn = true) : m.name = "up" ∨ m.name = "down" := by
  have hall : ∀ m ∈ Motion.defaults,
      m.walk.keepsColumn = true → m.name = "up" ∨ m.name = "down" := by decide
  exact hall m hm h

/-- Only the motions up and down call for a walk that keeps the column. -/
theorem Action.name_of_keepsColumn {bs : List Binding} {a : Action}
    (ha : a ∈ Keymap.withBindings bs) {keys : List Key} {c : Call} (hcall : a.call keys = .inr c)
    (h : c.KeepsColumn) : a.name = "up" ∨ a.name = "down" := by
  cases c with
  | move m keys' =>
    obtain rfl : a = .motion m := madeBy_of_call hcall
    refine Motion.name_of_keepsColumn ?_ h
    simpa [Keymap.withBindings, Keymap.builtin, Keymap.edits, Keymap.visual, Keymap.operators,
      Keymap.onChar, Keymap.onSelection, Keymap.shorthand] using ha
  | _ => exact h.elim

/-- **What an action leaves behind.** In Normal mode its cursors are at rest, unless it is one of
the motions up and down. -/
theorem Action.rests {bs : List Binding} {a : Action} (ha : a ∈ Keymap.withBindings bs)
    (hmode : a.modes.has s.mode) (hs : s.AtRest settings.placement) (keys : List Key) :
    (a.answer settings keys).Ends s (fun r s' => s'.AtRest settings.placement ∨
      r = .executed ∧ s.mode = .normal ∧ (a.name = "up" ∨ a.name = "down")) fun _ _ => True := by
  have hframe := a.frame settings keys s
  rw [answer_eq] at hframe ⊢
  cases h : a.call keys with
  | inl reply => exact .inl hs
  | inr c =>
    rw [h] at hframe
    have hbelongs := belongs_of_call (Keymap.atHome_withBindings bs a ha) hmode h
    by_cases hvertical : s.mode = .normal ∧ c.KeepsColumn
    · have hname := name_of_keepsColumn ha h hvertical.2
      refine hframe.mono (fun r s' hframed => ?_) fun _ _ _ => trivial
      by_cases hr : r = .executed
      · exact .inr ⟨hr, hvertical.1, hname⟩
      · rw [hframed hr]
        exact .inl hs
    · exact (c.rests hs hbelongs (not_and.1 hvertical)).mono (fun _ _ h => .inl h) fun _ _ h => h

/-! ### Keys -/

/-- Offering keys to the actions of the mode leaves the cursors at rest, unless a motion up or down
runs in Normal mode. -/
theorem Keymap.offer_rests {bs : List Binding} {k : Keymap}
    (hk : ∀ a ∈ k, a ∈ withBindings bs ∧ a.modes.has s.mode) (hs : s.AtRest settings.placement)
    (keys : List Key) (waiting : Bool) :
    (k.offer settings keys waiting).Ends s (fun o s' => s'.AtRest settings.placement ∨
      s.mode = .normal ∧ (o = .executed "up" ∨ o = .executed "down")) fun _ _ => True := by
  induction k generalizing waiting with
  | nil => exact .inl hs
  | cons a k ih =>
    obtain ⟨⟨ha, hmode⟩, hk⟩ := List.forall_mem_cons.1 hk
    rw [offer, Step.ends_bind]
    refine ((a.rests ha hmode hs keys).and (a.frame settings keys s)).mono (fun r s' h => ?_)
      fun _ _ _ => trivial
    obtain ⟨hrests, hframed⟩ := h
    cases r with
    | executed =>
      refine hrests.imp_right ?_
      rintro ⟨-, hnormal, hname⟩
      exact ⟨hnormal, hname.imp (congrArg Offer.executed) (congrArg Offer.executed)⟩
    | needsMore =>
      obtain rfl := hframed (by decide)
      exact ih hk true
    | noMatch =>
      obtain rfl := hframed (by decide)
      exact ih hk waiting

namespace Engine

variable {e : Engine} {ed : Editor}

/-- **What a key leaves behind.** The cursors of Normal mode are at rest, unless the key has moved
them up or down. -/
theorem handleKey_rests {bs : List Binding} (hk : e.keymap = .withBindings bs)
    (hs : (e.state ed).AtRest e.settings.placement) (key : Key)
    (hlevel : e.session.mode = .normal →
      (e.handleKey ed key).1 ≠ .executed "up" ∧ (e.handleKey ed key).1 ≠ .executed "down") :
    ((e.handleKey ed key).2.1.state (e.handleKey ed key).2.2).AtRest e.settings.placement := by
  have hmem : ∀ a ∈ e.keymap.forMode e.session.mode,
      a ∈ Keymap.withBindings bs ∧ a.modes.has (e.state ed).mode := fun a ha => by
    obtain ⟨ha, hmode⟩ := List.mem_filter.1 ha
    exact ⟨hk ▸ ha, hmode⟩
  have hoffer := Keymap.offer_rests hmem hs (e.session.pending ++ [key]) false
  have hframe := (e.keymap.forMode e.session.mode).frame e.settings
    (e.session.pending ++ [key]) false (e.state ed)
  have hdoc : ed.document.isNone = false := by
    obtain ⟨d, hd, -⟩ := hs
    rw [show ed.document = some d from hd]
    rfl
  simp only [handleKey, hdoc, Bool.false_eq_true, ↓reduceIte] at hlevel ⊢
  cases h : (e.keymap.forMode e.session.mode).offer e.settings (e.session.pending ++ [key]) false
      ⟨ed, e.session⟩ with
  | ok o s' =>
    have hrests := hoffer.of_ok h
    cases o with
    | executed action =>
      rcases hrests with hrests | ⟨hnormal, hname⟩
      · exact hrests.congr rfl rfl rfl
      · have hlevel := hlevel hnormal
        simp only [h] at hlevel
        rcases hname with hname | hname <;> cases hname
        · exact absurd rfl hlevel.1
        · exact absurd rfl hlevel.2
    | declined waiting =>
      rcases hrests with hrests | ⟨-, hname⟩
      · cases waiting <;> exact hrests.congr rfl rfl rfl
      · rcases hname with hname | hname <;> cases hname
  | error c s' =>
    rcases hframe.of_error h with rfl | ⟨-, rfl⟩
    · exact hs
    · exact hs.congr (State.document_syncRegisters _) (State.selections_syncRegisters _)
        (State.mode_syncRegisters _)

/-- None of the keys moves the cursors of Normal mode up or down. -/
def StaysLevel (e : Engine) (ed : Editor) : List Key → Prop
  | [] => True
  | key :: keys =>
    let (o, e', ed') := e.handleKey ed key
    (e.session.mode = .normal → o ≠ .executed "up" ∧ o ≠ .executed "down") ∧
      e'.StaysLevel ed' keys

instance decidableStaysLevel (e : Engine) (ed : Editor) :
    (keys : List Key) → Decidable (e.StaysLevel ed keys)
  | [] => inferInstanceAs (Decidable True)
  | key :: keys =>
    have := decidableStaysLevel (e.handleKey ed key).2.1 (e.handleKey ed key).2.2 keys
    inferInstanceAs (Decidable ((e.session.mode = .normal →
      (e.handleKey ed key).1 ≠ .executed "up" ∧ (e.handleKey ed key).1 ≠ .executed "down") ∧
        (e.handleKey ed key).2.1.StaysLevel (e.handleKey ed key).2.2 keys))

theorem handleKeys_atRest {bs : List Binding} {keys : List Key} (hk : e.keymap = .withBindings bs)
    (hs : (e.state ed).AtRest e.settings.placement) (hlevel : e.StaysLevel ed keys) :
    ((e.handleKeys ed keys).2.1.state (e.handleKeys ed keys).2.2).AtRest e.settings.placement := by
  induction keys generalizing e ed with
  | nil => exact hs
  | cons key keys ih =>
    obtain ⟨hkeymap, hsettings⟩ := e.handleKey_keeps ed key
    have hs' := handleKey_rests hk hs key hlevel.1
    rw [← hsettings] at hs' ⊢
    exact ih (hkeymap.trans hk) hs' hlevel.2

/-- **Where cursors rest.** If all cursors are at rest at the start, and as long as no cursor of
Normal mode is moved up or down: whenever the engine is in Normal mode, all selections are cursors
that rest. If cursors stand on characters, none is past the last character of its line. -/
theorem handleKeys_rests (e : Engine) (ed : Editor) (d : Document) (bs : List Binding)
    (keys : List Key) (hk : e.keymap = .withBindings bs) (hdoc : ed.document = some d)
    (hcursors : e.session.mode = .normal → ∀ sel ∈ ed.selections,
      sel.anchor = sel.active ∧ e.settings.placement.clamp d sel.active = sel.active)
    (hlevel : e.StaysLevel ed keys) :
    match e.handleKeys ed keys with
    | (_, e', ed') => ∃ d', ed'.document = some d' ∧ (e'.session.mode = .normal →
      ∀ sel ∈ ed'.selections, sel.anchor = sel.active ∧
        e.settings.placement.clamp d' sel.active = sel.active ∧
        (e.settings.placement = .onChar → sel.active.col < d'.lineLen sel.active.line ∨
          sel.active.col = 0 ∧ d'.lineLen sel.active.line = 0)) := by
  obtain ⟨d', hdoc', hrests⟩ := handleKeys_atRest hk ⟨d, hdoc, hcursors⟩ hlevel
  refine ⟨d', hdoc', fun hnormal sel hsel => ?_⟩
  obtain ⟨hcursor, hclamp⟩ := hrests hnormal sel hsel
  refine ⟨hcursor, hclamp, fun hplacement => ?_⟩
  rw [hplacement] at hclamp
  exact (Placement.onChar_clamp_eq_self_iff.1 hclamp).2

/-- With a cursor that stands on characters the last one of a line is deleted, another one is typed
in its place and a line break takes the place of that one. -/
theorem handleKeys_rests_onChar :
    let e : Engine := { settings := { placement := .onChar } }
    let d := Document.ofText ['a', 'b', '\n', 'c']
    let ed := Editor.ofDocument d [⟨0, 1⟩]
    let keys := [.char 'x', .char 'a', .char 'z', .named .esc, .char 'r', .named .enter]
    e.keymap = .withBindings [] ∧ ed.document = some d ∧
    (e.session.mode = .normal → ∀ sel ∈ ed.selections, sel.anchor = sel.active ∧
      e.settings.placement.clamp d sel.active = sel.active) ∧ e.StaysLevel ed keys ∧
    match e.handleKeys ed keys with
    | (_, e', ed') => e'.session.mode = .normal ∧ ed'.text = ['a', '\n', '\n', 'c'] ∧
      ed'.selections = [.cursor ⟨1, 0⟩] ∧ ∃ d', ed'.document = some d' ∧
      ∀ sel ∈ ed'.selections, Placement.onChar.clamp d' sel.active = sel.active := by
  intro e d ed keys
  have hlevel : e.StaysLevel ed keys := by decide +kernel
  have hout : (e.handleKeys ed keys).2.1.session.mode = .normal ∧
      (e.handleKeys ed keys).2.2.text = ['a', '\n', '\n', 'c'] ∧
      (e.handleKeys ed keys).2.2.selections = [.cursor ⟨1, 0⟩] := by decide +kernel
  have h := handleKeys_rests e ed d [] keys rfl rfl (by decide) hlevel
  refine ⟨rfl, rfl, by decide, hlevel, ?_⟩
  generalize e.handleKeys ed keys = out at hout h
  obtain ⟨outcomes, e', ed'⟩ := out
  obtain ⟨d', hdoc, hrests⟩ := h
  exact ⟨hout.1, hout.2.1, hout.2.2, d', hdoc, fun sel hsel => (hrests hout.1 sel hsel).2.1⟩

end Engine

end ModalEdit
