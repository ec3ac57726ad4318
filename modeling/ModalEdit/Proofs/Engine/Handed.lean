import ModalEdit.Proofs.Engine.OperatorOrder

/-!
# What the registers hold

The clipboard holds all entries in one text, from which they cannot be told again. So that paste
does not take the text of the store for someone else's, the store remembers what it has written.

An operator and a paste that stores what it replaces hand entries to the registers (`Call.handed`);
nothing else touches the registers or the clipboard, as long as what is on the clipboard is the
store's own (`Call.ends_registers`). It stays its own: either entries have been written to it or
nothing has changed (`State.InSync.writeRegisters`). From a fresh engine and an empty clipboard, or
with no clipboard at all, no text is ever adopted, and the registers hold what was last handed to
them (`Engine.handleKeys_registers`).
-/

namespace ModalEdit

variable {d : Document} {s s' t : State} {settings : Settings} {keys : List Key}

namespace State

/-! ### Registers that stay -/

theorem SameRegisters.refl (s : State) : s.SameRegisters s := ⟨rfl, rfl⟩

theorem SameRegisters.trans (h : s.SameRegisters s') (h' : s'.SameRegisters t) :
    s.SameRegisters t :=
  ⟨h'.registers.trans h.registers, h'.clipboard.trans h.clipboard⟩

theorem InSync.of_sameRegisters (h : s.InSync) (hsame : s.SameRegisters t) : t.InSync :=
  h.congr hsame.clipboard hsame.registers

/-- Text that has been written is the store's own. -/
theorem InSync.writeRegisters (h : s.InSync) (es : List RegisterEntry) :
    (s.writeRegisters es).InSync := by
  by_cases hes : es = []
  · rw [hes, writeRegisters_nil]
    exact h
  · exact inSync_writeRegisters s hes

/-- What has been written can be read; if it is nothing, the old entries can. -/
theorem entries_writeRegisters_eq (s : State) (es : List RegisterEntry) :
    (s.writeRegisters es).session.registers.entries =
      if es.isEmpty then s.session.registers.entries else es := by
  by_cases hes : es = []
  · rw [hes]
    rfl
  · rw [entries_writeRegisters s hes, if_neg (by simpa using hes)]

/-- The ranges of an operator on the selections. -/
theorem filterMap_selectedTargets (s : State) (d : Document) (kind : OperatorKind) :
    (s.selectedTargets d kind).filterMap (·.2) =
      s.selections.map (s.selectedRange d (kind != .change)) := by
  rw [selectedTargets, List.filterMap_map]
  show s.selections.filterMap (fun sel => some (s.selectedRange d (kind != .change) sel)) = _
  rw [List.filterMap_eq_map']

/-- The entries of the selections that are pasted over, in document order; none if there is nothing
to paste. -/
def entriesReplaced (s : State) (d : Document) : List RegisterEntry :=
  if s.pasteEntries.isEmpty then []
  else ((s.selections.map (s.selectedRange d true)).mergeSort fun a b =>
    decide (a.start ≤ b.start)).map d.registerEntry

end State

/-! ### What is called -/

/-- What is handed to the registers by what is called, when the document `d` is open. -/
def Call.handed (d : Document) (s : State) : Call → List RegisterEntry
  | command (.pasteOver true) _ => s.entriesReplaced d
  | operate kind => d.entriesOf (s.selections.map (s.selectedRange d (kind != .change)))
  | shorthand kind object | compose kind object =>
    d.entriesOf (OperatorKind.rangesOf (kind.foundAt d s.session.lastFind object s.selections))
  | _ => []

namespace Step

/-- Unless it fails, the step leaves the registers and the clipboard alone. -/
def KeepsRegisters {α : Type} (m : Step α) (s : State) : Prop :=
  m.Ends s (fun _ t => s.SameRegisters t) fun _ _ => True

theorem ends_commit_registers (hdoc : s.editor.document = some d) {edits : List Edit}
    {Q : Document × Plan → State → Prop} (hQ : ∀ r t, s.SameRegisters t → Q r t) :
    (commit d edits).Ends s Q fun _ _ => True :=
  ends_commit hdoc (fun _ _ _ => hQ _ _ ⟨rfl, rfl⟩) fun _ _ => trivial

theorem keepsRegisters_openLine (hdoc : s.editor.document = some d) (below : Bool) :
    (openLine d below).KeepsRegisters s := by
  simp only [KeepsRegisters, openLine, ends_bind, ends_get, ends_modify]
  exact ends_commit_registers hdoc fun _ _ h => ⟨h.registers, h.clipboard⟩

theorem keepsRegisters_replaceChar (hdoc : s.editor.document = some d) (key : Option Key) :
    (replaceChar d key).KeepsRegisters s := by
  unfold KeepsRegisters replaceChar
  split
  · exact .refl s
  · simp only [ends_bind, ends_get]
    refine ends_commit_registers hdoc fun _ _ h => ?_
    split <;> exact ⟨h.registers, h.clipboard⟩

theorem keepsRegisters_joinLines (hdoc : s.editor.document = some d) (settings : Settings) :
    (joinLines settings d).KeepsRegisters s := by
  simp only [KeepsRegisters, joinLines, ends_bind, ends_get]
  refine ends_commit_registers hdoc fun _ _ h => ?_
  split <;> exact ⟨h.registers, h.clipboard⟩

theorem keepsRegisters_type (hdoc : s.editor.document = some d) (t : Typed) :
    (type d t).KeepsRegisters s := by
  simp only [KeepsRegisters, type, ends_bind, ends_get, ends_modify]
  exact ends_commit_registers hdoc fun _ _ h => ⟨h.registers, h.clipboard⟩

/-- Paste adopts nothing if the text on the clipboard is the store's own. -/
theorem keepsRegisters_paste (hdoc : s.editor.document = some d) (hsync : s.InSync)
    (pl : Placement) (after : Bool) : (paste pl d after).KeepsRegisters s := by
  simp only [KeepsRegisters, paste, ends_bind, ends_modify, ends_get, hsync.syncRegisters_eq]
  split
  · exact .refl s
  · simp only [ends_bind, ends_modify]
    exact ends_commit_registers hdoc fun _ _ h => ⟨h.registers, h.clipboard⟩

/-- Nor does a paste over selections, which may hand over what it replaces. -/
theorem pasteOver_registers (hdoc : s.editor.document = some d) (hsync : s.InSync)
    (pl : Placement) (storeReplaced : Bool) :
    (pasteOver pl d storeReplaced).Ends s (fun _ t =>
      (s.writeRegisters (if storeReplaced then s.entriesReplaced d else [])).SameRegisters t)
      fun _ _ => True := by
  simp only [pasteOver, ends_bind, ends_modify, ends_get, hsync.syncRegisters_eq,
    State.entriesReplaced]
  split
  · rw [ite_self]
    exact ⟨rfl, rfl⟩
  · simp only [ends_bind]
    refine ends_commit hdoc (fun after plan _ => ?_) fun _ _ => trivial
    split
    · rw [ends_bind, ends_modify, ends_modify, State.edited_writeRegisters]
      exact ⟨rfl, rfl⟩
    · exact ⟨rfl, rfl⟩

theorem keepsRegisters_moveCursors (m : Motion) :
    (moveCursors settings d m keys).KeepsRegisters s := by
  simp only [KeepsRegisters, moveCursors, ends_bind, ends_get]
  split
  · exact .refl s
  · split <;> exact ⟨rfl, rfl⟩

theorem keepsRegisters_extend (m : Motion) : (extend d m keys).KeepsRegisters s := by
  simp only [KeepsRegisters, extend, ends_bind, ends_get]
  split
  · exact .refl s
  · split <;> exact ⟨rfl, rfl⟩

theorem keepsRegisters_selectObject : (selectObject d keys).KeepsRegisters s := by
  simp only [KeepsRegisters, selectObject, ends_bind, ends_get]
  split
  · simp only [ends_bind, ends_modify]
    split <;> exact ⟨rfl, rfl⟩
  · split <;> exact .refl s

end Step

theorem Command.ends_registers (c : Command) (settings : Settings) (key : Option Key)
    (hdoc : s.editor.document = some d) (hsync : s.InSync) :
    (c.run settings d key).Ends s (fun _ t =>
      (s.writeRegisters ((Call.command c key).handed d s)).SameRegisters t) fun _ _ => True := by
  cases c with
  | escape =>
    show s.SameRegisters (s.escape settings d)
    unfold State.escape
    repeat' split
    all_goals exact ⟨rfl, rfl⟩
  | insert place => exact ⟨rfl, rfl⟩
  | openLine below => exact Step.keepsRegisters_openLine hdoc below
  | replaceChar => exact Step.keepsRegisters_replaceChar hdoc key
  | joinLines => exact Step.keepsRegisters_joinLines hdoc settings
  | paste after => exact Step.keepsRegisters_paste hdoc hsync settings.placement after
  | toggleVisual =>
    show s.SameRegisters (s.toggleVisual settings d)
    unfold State.toggleVisual
    split <;> exact ⟨rfl, rfl⟩
  | toggleVisualLine =>
    show s.SameRegisters (s.toggleVisualLine settings d)
    unfold State.toggleVisualLine
    split <;> exact ⟨rfl, rfl⟩
  | swapEnds => exact ⟨rfl, rfl⟩
  | pasteOver storeReplaced =>
    have h := Step.pasteOver_registers hdoc hsync settings.placement storeReplaced
    cases storeReplaced <;> exact h

/-- **What is called changes the registers and the clipboard** only by what it hands over, and not
at all if it fails. -/
theorem Call.ends_registers (c : Call) (settings : Settings) (hdoc : s.editor.document = some d)
    (hsync : s.InSync) :
    (c.run settings).Ends s (fun _ t => (s.writeRegisters (c.handed d s)).SameRegisters t)
      fun _ t => t = s := by
  have hopen {go : Document → Step Reply} {Q : Reply → State → Prop}
      (h : (go d).Ends s Q fun _ _ => True) : (Step.withDocument go).Ends s Q fun _ _ => True :=
    (Step.ends_withDocument_of_some hdoc).2 h
  have hran {m : Step Unit} {l : List RegisterEntry} (h : m.Ends s
      (fun _ t => (s.writeRegisters l).SameRegisters t) fun _ _ => True) :
      (do m; return .executed : Step Reply).Ends s
        (fun _ t => (s.writeRegisters l).SameRegisters t) fun _ _ => True := by
    rw [Step.ends_bind]
    exact h.mono (fun _ _ h => h) fun _ _ h => h
  have hok : (c.run settings).Ends s
      (fun _ t => (s.writeRegisters (c.handed d s)).SameRegisters t) fun _ _ => True := by
    cases c with
    | command c key => exact hopen (hran (c.ends_registers settings key hdoc hsync))
    | type t => exact hopen (hran (l := []) (Step.keepsRegisters_type hdoc t))
    | operate kind =>
      refine hopen (hran ?_)
      rw [Step.operate, Step.ends_bind, Step.ends_get]
      have h := kind.ends_apply_registers settings.placement (s.selectedTargets d kind) true hdoc
      rw [State.filterMap_selectedTargets] at h
      exact h
    | selectObject keys => exact hopen Step.keepsRegisters_selectObject
    | shorthand kind object =>
      refine hopen ?_
      rw [Step.ends_bind]
      refine (kind.ends_compose_registers settings object hdoc).mono (fun r t h => ?_)
        fun _ _ h => h
      split <;> exact ⟨h.registers, h.clipboard⟩
    | compose kind object => exact hopen (kind.ends_compose_registers settings object hdoc)
    | move m keys =>
      refine hopen ?_
      rw [Step.ends_bind, Step.ends_get]
      split
      · exact Step.keepsRegisters_extend m
      · exact Step.keepsRegisters_moveCursors m
    | execute b =>
      rw [run, Step.ends_bind, Step.ends_execute]
      exact ⟨fun _ => ⟨rfl, rfl⟩, fun _ => trivial⟩
  refine (hok.and (c.frame settings s)).mono (fun _ _ h => h.1) fun _ t h => ?_
  rcases h.2 with rfl | ⟨-, rfl⟩
  · rfl
  · exact hsync.syncRegisters_eq

/-! ### Actions -/

/-- What an action hands to the registers when it is offered keys with the document `d` open. -/
def Action.handed (keys : List Key) (d : Document) (s : State) (a : Action) : List RegisterEntry :=
  match a.call keys with
  | .inl _ => []
  | .inr c => c.handed d s

theorem Action.ends_registers (a : Action) (settings : Settings) (keys : List Key)
    (hdoc : s.editor.document = some d) (hsync : s.InSync) :
    (a.answer settings keys).Ends s
      (fun _ t => (s.writeRegisters (a.handed keys d s)).SameRegisters t) fun _ t => t = s := by
  rw [answer_eq, handed]
  cases a.call keys with
  | inl r => exact .refl s
  | inr c => exact c.ends_registers settings hdoc hsync

/-- What is handed to the registers when keys are offered to actions one after the other: what is
handed by the first of them that runs. -/
def Keymap.handed (settings : Settings) (keys : List Key) (d : Document) (s : State) :
    Keymap → List RegisterEntry
  | [] => []
  | a :: rest =>
    match a.run settings s keys with
    | .executed _ => a.handed keys d s
    | .needsMore | .noMatch => handed settings keys d s rest
    | .failed .. => []

theorem Keymap.ends_registers (k : Keymap) (settings : Settings) (keys : List Key) (waiting : Bool)
    (hdoc : s.editor.document = some d) (hsync : s.InSync) :
    (k.offer settings keys waiting).Ends s
      (fun _ t => (s.writeRegisters (k.handed settings keys d s)).SameRegisters t)
      fun _ t => (s.writeRegisters (k.handed settings keys d s)).SameRegisters t := by
  induction k generalizing waiting with
  | nil => exact .refl s
  | cons a k ih =>
    have haction := a.ends_registers settings keys hdoc hsync
    have hframe := a.frame settings keys s
    rw [offer, Step.ends_bind]
    cases h : a.answer settings keys s with
    | error e t =>
      obtain rfl := haction.of_error h
      rw [Step.ends_of_error h]
      simp only [handed, Action.run, Step.attempt, h]
      exact .refl t
    | ok r t =>
      have hframed : s.Framed r t := hframe.of_ok h
      rw [Step.ends_of_ok h]
      simp only [handed, Action.run, Step.attempt, h]
      cases r with
      | executed => exact haction.of_ok h
      | needsMore =>
        obtain rfl := hframed (by decide)
        exact ih true
      | noMatch =>
        obtain rfl := hframed (by decide)
        exact ih waiting

/-! ### Keys -/

namespace Engine

/-- What a key hands to the registers. -/
def handed (e : Engine) (ed : Editor) (key : Key) : List RegisterEntry :=
  match ed.document with
  | none => []
  | some d =>
    (e.keymap.forMode e.session.mode).handed e.settings (e.session.pending ++ [key]) d (e.state ed)

/-- What each key of a run hands to the registers. -/
def handedBy : Engine → Editor → List Key → List (List RegisterEntry)
  | _, _, [] => []
  | e, ed, k :: ks =>
    let (_, e', ed') := e.handleKey ed k
    e.handed ed k :: handedBy e' ed' ks

variable {e : Engine} {ed : Editor}

/-- **One key** changes the registers and the clipboard by what it hands over. -/
theorem handleKey_registers (hsync : (e.state ed).InSync) (key : Key) :
    ((e.state ed).writeRegisters (e.handed ed key)).SameRegisters
      ((e.handleKey ed key).2.1.state (e.handleKey ed key).2.2) := by
  cases hdoc : ed.document with
  | none =>
    simp only [handed, handleKey, hdoc, Option.isNone_none, ↓reduceIte]
    exact .refl _
  | some d =>
    have h := (e.keymap.forMode e.session.mode).ends_registers e.settings
      (e.session.pending ++ [key]) false hdoc hsync
    simp only [handed, handleKey, hdoc, Option.isNone_some, Bool.false_eq_true, ↓reduceIte]
    cases hoffer : (e.keymap.forMode e.session.mode).offer e.settings
        (e.session.pending ++ [key]) false ⟨ed, e.session⟩ with
    | error c t => exact h.of_error hoffer
    | ok o t =>
      have hsame := h.of_ok hoffer
      cases o with
      | executed action => exact ⟨hsame.registers, hsame.clipboard⟩
      | declined waiting => cases waiting <;> exact ⟨hsame.registers, hsame.clipboard⟩

/-- **A run of keys**: what is on the clipboard stays the store's own, and the last entries that
have been handed over take the place of the old ones. -/
theorem handleKeys_inSync (hsync : (e.state ed).InSync) (keys : List Key) :
    let run := e.handleKeys ed keys
    (run.2.1.state run.2.2).InSync ∧ run.2.1.session.registers.entries =
      ((e.handedBy ed keys).filter fun es => !es.isEmpty).getLast?.getD
        e.session.registers.entries := by
  induction keys generalizing e ed with
  | nil => exact ⟨hsync, rfl⟩
  | cons key keys ih =>
    have hkey := handleKey_registers hsync key
    obtain ⟨hsync', hentries⟩ := ih ((hsync.writeRegisters _).of_sameRegisters hkey)
    refine ⟨hsync', hentries.trans ?_⟩
    have hfirst : (e.handleKey ed key).2.1.session.registers.entries = _ :=
      (congrArg Registers.entries hkey.registers).trans (State.entries_writeRegisters_eq _ _)
    rw [hfirst, handedBy, List.filter_cons]
    cases hes : (e.handed ed key).isEmpty with
    | true => rfl
    | false =>
      rw [Bool.not_false, if_pos rfl, List.getLast?_cons, Option.getD_some,
        if_neg Bool.false_ne_true]

/-- **No text is adopted that the store has written itself.** The engine is fresh, the clipboard is
empty or there is none, and only the engine writes to it. After any keys, and so whenever a paste
comes next, the text on the clipboard is not someone else's; and the registers hold what an operator
or a storing paste has last handed to them, entry by entry. -/
theorem handleKeys_registers (e : Engine) (ed : Editor) (keys : List Key)
    (hfresh : e.session.registers = {}) (hclip : ed.clipboard = some [] ∨ ed.clipboard = none) :
    match e.handleKeys ed keys with
    | (_, e', ed') =>
      (∀ text, ed'.clipboard = some text → e'.session.registers.isForeign text = false) ∧
        e'.session.registers.entries =
          ((e.handedBy ed keys).filter fun es => !es.isEmpty).getLast?.getD [] := by
  have hsync : (e.state ed).InSync := by
    intro text htext
    have htext : ed.clipboard = some text := htext
    rcases hclip with h | h
    · rw [h] at htext
      cases htext
      rfl
    · rw [h] at htext
      cases htext
  obtain ⟨hsync', hentries⟩ := handleKeys_inSync hsync keys
  rw [hfresh] at hentries
  exact ⟨hsync', hentries⟩

/-- A character is yanked and pasted over the next one, which is stored. -/
theorem handleKeys_registers_pasteOver :
    let e : Engine := {}
    let ed := Editor.ofDocument (.ofText ['a', 'b']) [⟨0, 0⟩]
    let keys : List Key := ['y', 'l', 'l', 'v', 'p'].map .char
    e.session.registers = {} ∧ ed.clipboard = some [] ∧
    e.handedBy ed keys = [[], [.charwise ['a']], [], [], [.charwise ['b']]] ∧
    match e.handleKeys ed keys with
    | (_, e', ed') => ed'.clipboard = some ['b'] ∧
      e'.session.registers.isForeign ['b'] = false ∧
        e'.session.registers.entries = [.charwise ['b']] := by
  intro e ed keys
  have hhanded : e.handedBy ed keys = [[], [.charwise ['a']], [], [], [.charwise ['b']]] := by
    decide +kernel
  have hclip : (e.handleKeys ed keys).2.2.clipboard = some ['b'] := by decide +kernel
  have h := handleKeys_registers e ed keys rfl (.inl rfl)
  rw [hhanded] at h
  refine ⟨rfl, rfl, hhanded, ?_⟩
  generalize e.handleKeys ed keys = out at hclip h
  obtain ⟨outcomes, e', ed'⟩ := out
  exact ⟨hclip, h.1 _ hclip, h.2⟩

end Engine

end ModalEdit
