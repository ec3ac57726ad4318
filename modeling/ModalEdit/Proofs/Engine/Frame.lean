import ModalEdit.Engine
import ModalEdit.Proofs.Action.Call

/-!
# Keys that run nothing

An action that declines the keys, and an action that fails, leaves the state as it was: whatever can
fail on the way does so before anything is changed. The only exception is paste, which first adopts
what someone else has put on the clipboard and keeps it when the edit is refused.

`Action.frame` says so of one action, `Keymap.frame` of the actions tried one after the other, and
`Engine.handleKey_frame` of a key.
-/

namespace ModalEdit

/-! ### Steps that fail before they change anything -/

namespace Step

/-- From the state `s` the step fails without a change, if it fails. -/
def Atomic {α : Type} (m : Step α) (s : State) : Prop :=
  m.Ends s (fun _ _ => True) fun _ s' => s' = s

variable {s : State} {d : Document}

theorem atomic_commit {edits : List Edit} {Q : Document × Plan → State → Prop}
    (hd : s.editor.document = some d) (hQ : ∀ r s', Q r s') :
    (commit d edits).Ends s Q fun _ s' => s' = s :=
  ends_commit hd (fun _ _ _ => hQ _ _) fun _ _ => rfl

theorem atomic_openLine (hd : s.editor.document = some d) (below : Bool) :
    Atomic (openLine d below) s := by
  simp only [Atomic, openLine, ends_bind, ends_get, ends_modify]
  exact atomic_commit hd fun _ _ => trivial

theorem atomic_replaceChar (hd : s.editor.document = some d) (key : Option Key) :
    Atomic (replaceChar d key) s := by
  unfold Atomic replaceChar
  split
  · exact trivial
  · simp only [ends_bind, ends_get]
    refine atomic_commit hd fun _ _ => ?_
    split <;> exact trivial

theorem atomic_joinLines (hd : s.editor.document = some d) (settings : Settings) :
    Atomic (joinLines settings d) s := by
  simp only [Atomic, joinLines, ends_bind, ends_get]
  refine atomic_commit hd fun _ _ => ?_
  split <;> exact trivial

theorem atomic_type (hd : s.editor.document = some d) (t : Typed) : Atomic (type d t) s := by
  simp only [Atomic, type, ends_bind, ends_get, ends_modify]
  exact atomic_commit hd fun _ _ => trivial

theorem atomic_apply (hd : s.editor.document = some d) (kind : OperatorKind) (pl : Placement)
    (targets : List Target) (ofSelection : Bool) :
    Atomic (kind.apply pl d targets ofSelection) s := by
  unfold Atomic OperatorKind.apply
  dsimp only
  split
  · exact trivial
  · simp only [ends_bind, ends_modify]
    exact atomic_commit hd fun _ _ => trivial

theorem atomic_operate (hd : s.editor.document = some d) (settings : Settings)
    (kind : OperatorKind) : Atomic (operate settings d kind) s := by
  rw [Atomic, operate, ends_bind, ends_get]
  exact atomic_apply hd kind _ _ _

/-- A paste that is refused has adopted the clipboard, and nothing else has changed. -/
theorem paste_frame (hd : s.editor.document = some d) (pl : Placement) (after : Bool) :
    (paste pl d after).Ends s (fun _ _ => True) fun _ s' => s' = s.syncRegisters := by
  simp only [paste, ends_bind, ends_modify, ends_get]
  split
  · exact trivial
  · simp only [ends_bind, ends_modify]
    exact atomic_commit (by simpa using hd) fun _ _ => trivial

theorem pasteOver_frame (hd : s.editor.document = some d) (pl : Placement) (storeReplaced : Bool) :
    (pasteOver pl d storeReplaced).Ends s (fun _ _ => True) fun _ s' => s' = s.syncRegisters := by
  simp only [pasteOver, ends_bind, ends_modify, ends_get]
  split
  · exact trivial
  · simp only [ends_bind]
    refine atomic_commit (by simpa using hd) fun _ _ => ?_
    split <;> exact trivial

end Step

/-! ### Actions -/

/-- The command puts register text into the document. -/
def Command.pastes : Command → Bool
  | paste _ | pasteOver _ => true
  | _ => false

/-- What is left behind when something that may adopt the clipboard does not come about. -/
def State.Left (s : State) (adopts : Prop) (s' : State) : Prop :=
  s' = s ∨ adopts ∧ s' = s.syncRegisters

theorem Command.frame (c : Command) (settings : Settings) {d : Document} (key : Option Key)
    {s : State} (hd : s.editor.document = some d) :
    (c.run settings d key).Ends s (fun _ _ => True) fun _ => s.Left c.pastes := by
  have hatomic : ∀ {m : Step Unit}, m.Atomic s →
      m.Ends s (fun _ _ => True) fun _ => s.Left c.pastes :=
    fun h => h.mono (fun _ _ h => h) fun _ _ h => .inl h
  cases c with
  | escape => exact trivial
  | insert place => exact trivial
  | openLine below => exact hatomic (Step.atomic_openLine hd below)
  | replaceChar => exact hatomic (Step.atomic_replaceChar hd key)
  | joinLines => exact hatomic (Step.atomic_joinLines hd settings)
  | paste after =>
    exact (Step.paste_frame hd _ after).mono (fun _ _ h => h) fun _ _ h => .inr ⟨rfl, h⟩
  | toggleVisual => exact trivial
  | toggleVisualLine => exact trivial
  | swapEnds => exact trivial
  | pasteOver storeReplaced =>
    exact (Step.pasteOver_frame hd _ storeReplaced).mono (fun _ _ h => h) fun _ _ h => .inr ⟨rfl, h⟩

/-- Unless an action ran, the reply comes with the state as it was. -/
def State.Framed (s : State) (r : Reply) (s' : State) : Prop := r ≠ .executed → s' = s

theorem OperatorKind.compose_frame (kind : OperatorKind) (settings : Settings) {d : Document}
    (keys : List Key) {s : State} (hd : s.editor.document = some d) :
    (kind.compose settings d keys).Ends s s.Framed fun _ s' => s' = s := by
  simp only [compose, Step.ends_bind, Step.ends_get]
  split
  · simp only [Step.ends_bind, Step.ends_modify, Step.ends_pure]
    exact (Step.atomic_apply hd kind _ _ _).mono (fun _ _ _ h => absurd rfl h) fun _ _ h => h
  · exact fun _ => rfl

namespace Step

variable {s : State} (settings : Settings) (d : Document) (keys : List Key)

theorem moveCursors_frame (m : Motion) {E : EditorError → State → Prop} :
    (moveCursors settings d m keys).Ends s s.Framed E := by
  simp only [moveCursors, ends_bind, ends_get]
  split
  · exact fun _ => rfl
  · split
    · exact fun h => absurd rfl h
    · exact fun _ => rfl

theorem extend_frame (m : Motion) {E : EditorError → State → Prop} :
    (extend d m keys).Ends s s.Framed E := by
  simp only [extend, ends_bind, ends_get]
  split
  · exact fun _ => rfl
  · split
    · exact fun h => absurd rfl h
    · exact fun _ => rfl

theorem selectObject_frame {E : EditorError → State → Prop} :
    (selectObject d keys).Ends s s.Framed E := by
  simp only [selectObject, ends_bind, ends_get]
  split
  · simp only [ends_bind, ends_modify]
    split <;> exact fun h => absurd rfl h
  · split <;> exact fun _ => rfl

end Step

/-- The call is for a paste. -/
def Call.pastes : Call → Bool
  | command c _ => c.pastes
  | _ => false

/-- **What is called leaves the state alone unless it runs**, but for a paste that is refused. -/
theorem Call.frame (c : Call) (settings : Settings) (s : State) :
    (c.run settings).Ends s s.Framed fun _ => s.Left c.pastes := by
  -- With a document open it is enough to look at what is done with it.
  have hopen {go : Document → Step Reply} (h : ∀ d, s.editor.document = some d →
      (go d).Ends s s.Framed fun _ => s.Left c.pastes) :
      (Step.withDocument go).Ends s s.Framed fun _ => s.Left c.pastes :=
    Step.ends_withDocument.2 ⟨h, fun _ => .inl rfl⟩
  have hran {m : Step Unit} (h : m.Atomic s) :
      (do m; return .executed : Step Reply).Ends s s.Framed fun _ => s.Left c.pastes := by
    rw [Step.ends_bind]
    exact h.mono (fun _ _ _ hne => absurd rfl hne) fun _ _ h => .inl h
  cases c with
  | command c key =>
    refine hopen fun d hd => ?_
    rw [Step.ends_bind]
    exact (c.frame settings key hd).mono (fun _ _ _ hne => absurd rfl hne) fun _ _ h => h
  | type t => exact hopen fun d hd => hran (Step.atomic_type hd t)
  | operate kind => exact hopen fun d hd => hran (Step.atomic_operate hd settings kind)
  | selectObject keys => exact hopen fun d hd => Step.selectObject_frame d keys
  | shorthand kind object =>
    refine hopen fun d hd => ?_
    rw [Step.ends_bind]
    refine (kind.compose_frame settings object hd).mono (fun r s' _ => ?_) fun _ _ h => .inl h
    split <;> exact fun hne => absurd rfl hne
  | compose kind keys =>
    refine hopen fun d hd => ?_
    exact (kind.compose_frame settings keys hd).mono (fun _ _ h => h) fun _ _ h => .inl h
  | move m keys =>
    refine hopen fun d hd => ?_
    rw [Step.ends_bind, Step.ends_get]
    split
    · exact Step.extend_frame d keys m
    · exact Step.moveCursors_frame settings d keys m
  | execute b =>
    rw [run, Step.ends_bind, Step.ends_execute]
    exact ⟨fun _ hne => absurd rfl hne, fun _ => .inl rfl⟩

/-- The keys call for a paste. -/
def Action.Pastes (keys : List Key) (a : Action) : Prop :=
  ∃ c, a.call keys = .inr c ∧ c.pastes

/-- **An action that does not run leaves the state alone**, but for a paste that is refused. -/
theorem Action.frame (a : Action) (settings : Settings) (keys : List Key) (s : State) :
    (a.answer settings keys).Ends s s.Framed fun _ => s.Left (a.Pastes keys) := by
  rw [answer_eq]
  cases h : a.call keys with
  | inl reply => exact fun _ => rfl
  | inr c =>
    refine (c.frame settings s).mono (fun _ _ h => h) fun _ _ hleft => ?_
    exact hleft.imp_right fun hpaste => ⟨⟨c, h, hpaste.1⟩, hpaste.2⟩

/-! ### Keys -/

/-- Offered the keys, the action does not run, and it leaves the state alone. -/
def Action.Declines (settings : Settings) (keys : List Key) (s : State) (a : Action) : Prop :=
  ∃ r, r ≠ .executed ∧ a.answer settings keys s = .ok r s

/-- Of the actions that are offered the keys one after the other, all before `a` decline, and `a`
fails. -/
def Keymap.FailsAt (settings : Settings) (keys : List Key) (s : State) (k : Keymap) (a : Action) :
    Prop :=
  ∃ before rest, k = before ++ a :: rest ∧ (∀ b ∈ before, b.Declines settings keys s) ∧
    ∃ e s', a.answer settings keys s = .error e s'

theorem Keymap.FailsAt.cons {settings : Settings} {keys : List Key} {s : State} {k : Keymap}
    {a b : Action} (hb : b.Declines settings keys s) (h : k.FailsAt settings keys s a) :
    FailsAt settings keys s (b :: k) a := by
  obtain ⟨before, rest, rfl, hbefore, hfails⟩ := h
  exact ⟨b :: before, rest, rfl, List.forall_mem_cons.2 ⟨hb, hbefore⟩, hfails⟩

/-- Of the actions tried one after the other, those before the one that runs or fails leave no
trace. -/
theorem Keymap.frame (k : Keymap) (settings : Settings) (keys : List Key) (waiting : Bool)
    (s : State) :
    (k.offer settings keys waiting).Ends s
      (fun o s' => (∃ action, o = .executed action) ∨ s' = s)
      fun _ => s.Left (∃ a, k.FailsAt settings keys s a ∧ a.Pastes keys) := by
  induction k generalizing waiting with
  | nil => exact .inr rfl
  | cons a k ih =>
    have hrest (ha : a.Declines settings keys s) (waiting : Bool) :
        Step.Ends (offer settings keys waiting k) s
          (fun o s' => (∃ action, o = .executed action) ∨ s' = s)
          fun _ => s.Left (∃ a', FailsAt settings keys s (a :: k) a' ∧ a'.Pastes keys) := by
      refine (ih waiting).mono (fun _ _ h => h) fun _ _ h => h.imp_right ?_
      rintro ⟨⟨a', hfails, hpaste⟩, h⟩
      exact ⟨⟨a', hfails.cons ha, hpaste⟩, h⟩
    have hframe := a.frame settings keys s
    rw [offer, Step.ends_bind]
    cases h : a.answer settings keys s with
    | ok r s' =>
      have hframed : s.Framed r s' := hframe.of_ok h
      rw [Step.ends_of_ok h]
      cases r with
      | executed => exact .inl ⟨_, rfl⟩
      | needsMore =>
        obtain rfl := hframed nofun
        exact hrest ⟨.needsMore, nofun, h⟩ true
      | noMatch =>
        obtain rfl := hframed nofun
        exact hrest ⟨.noMatch, nofun, h⟩ waiting
    | error e s' =>
      rw [Step.ends_of_error h]
      refine (hframe.of_error h).imp_right ?_
      rintro ⟨hpaste, hsync⟩
      exact ⟨⟨a, ⟨[], k, rfl, by simp, e, s', h⟩, hpaste⟩, hsync⟩

namespace Engine

/-- The engine once the text on the clipboard has been adopted. -/
def adopting (e : Engine) (text : Text) : Engine :=
  e.withSession { e.session with registers := e.session.registers.sync text }

/-- **A key that runs nothing changes nothing but the pending keys.** A key that waits joins them
and a key that means nothing drops them. A key that fails leaves even them alone; if the action that
failed is a paste, the text on the clipboard may have been adopted. -/
theorem handleKey_frame (e : Engine) (ed : Editor) (key : Key) :
    match e.handleKey ed key with
    | (.executed _, e', _) =>
      e'.keymap = e.keymap ∧ e'.settings = e.settings ∧ e'.session.pending = []
    | (.pending, e', ed') =>
      ed' = ed ∧ e' = e.withSession { e.session with pending := e.session.pending ++ [key] }
    | (.reset, e', ed') => ed' = ed ∧ e' = e.withSession { e.session with pending := [] }
    | (.aborted, e', ed') =>
      ed' = ed ∧
        (e' = e ∨
          (∃ a, (e.keymap.forMode e.session.mode).FailsAt e.settings (e.session.pending ++ [key])
              ⟨ed, e.session⟩ a ∧ a.Pastes (e.session.pending ++ [key])) ∧
            ∃ text, ed.clipboard = some text ∧ e' = e.adopting text) := by
  by_cases hdoc : ed.document.isNone
  · simp only [handleKey, hdoc, ↓reduceIte]
    exact ⟨trivial, .inl trivial⟩
  · have h := (e.keymap.forMode e.session.mode).frame e.settings (e.session.pending ++ [key]) false
      ⟨ed, e.session⟩
    simp only [handleKey, hdoc, Bool.false_eq_true, ↓reduceIte]
    cases hoffer : (e.keymap.forMode e.session.mode).offer e.settings
        (e.session.pending ++ [key]) false ⟨ed, e.session⟩ with
    | ok o s' =>
      cases o with
      | executed action => exact ⟨rfl, rfl, rfl⟩
      | declined waiting =>
        obtain rfl := (h.of_ok hoffer).resolve_left nofun
        cases waiting <;> exact ⟨rfl, rfl⟩
    | error c s' =>
      obtain rfl | ⟨hpaste, rfl⟩ := h.of_error hoffer
      · exact ⟨rfl, .inl rfl⟩
      · cases hclip : ed.clipboard with
        | none => simp [State.syncRegisters, hclip, withSession]
        | some text =>
          simp only [State.syncRegisters, hclip]
          exact ⟨trivial, .inr ⟨hpaste, text, rfl, rfl⟩⟩

/-- What is pending after a key: nothing, or in the same mode what has been, with or without the
key. -/
theorem handleKey_pending (e : Engine) (ed : Editor) (key : Key) :
    let e' := (e.handleKey ed key).2.1
    e'.session.pending = [] ∨ e'.session.mode = e.session.mode ∧
      (e'.session.pending = e.session.pending ++ [key] ∨
        e'.session.pending = e.session.pending) := by
  unfold handleKey
  split
  · exact .inr ⟨rfl, .inr rfl⟩
  · dsimp only
    have hframe := (e.keymap.forMode e.session.mode).frame e.settings
      (e.session.pending ++ [key]) false ⟨ed, e.session⟩
    split
    · exact .inl rfl
    · rename_i s' hoffer
      obtain rfl := (hframe.of_ok hoffer).resolve_left nofun
      exact .inr ⟨rfl, .inl rfl⟩
    · exact .inl rfl
    · rename_i c s' hoffer
      -- A paste that fails may have adopted the clipboard, but not touched the keys.
      rcases hframe.of_error hoffer with rfl | ⟨-, rfl⟩
      · exact .inr ⟨rfl, .inr rfl⟩
      · unfold State.syncRegisters
        split <;> exact .inr ⟨rfl, .inr rfl⟩

/-- A key leaves the actions and the settings alone. -/
theorem handleKey_keeps (e : Engine) (ed : Editor) (key : Key) :
    (e.handleKey ed key).2.1.keymap = e.keymap ∧
      (e.handleKey ed key).2.1.settings = e.settings := by
  unfold handleKey
  split
  · exact ⟨rfl, rfl⟩
  · dsimp only
    split <;> exact ⟨rfl, rfl⟩

theorem handleKeys_keeps (e : Engine) (ed : Editor) (keys : List Key) :
    (e.handleKeys ed keys).2.1.keymap = e.keymap ∧
      (e.handleKeys ed keys).2.1.settings = e.settings := by
  induction keys generalizing e ed with
  | nil => exact ⟨rfl, rfl⟩
  | cons key keys ih =>
    obtain ⟨hkeymap, hsettings⟩ := e.handleKey_keeps ed key
    obtain ⟨hkeymap', hsettings'⟩ := ih (e.handleKey ed key).2.1 (e.handleKey ed key).2.2
    exact ⟨hkeymap'.trans hkeymap, hsettings'.trans hsettings⟩

end Engine

end ModalEdit
