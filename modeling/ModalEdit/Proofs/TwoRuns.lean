import ModalEdit.Proofs.Step

/-!
# Two runs compared

`Step.EndAlike` compares two steps, each from a state of its own: both must end in the same result,
or fail with the same error, in states that are related. Like `Step.Ends` it is pushed through the
parts of the steps, so that a statement about two runs of a command becomes one about the pairs of
states they pass through.

Two runs often start in states that differ in the selections only (`State.withSelections`). What
sets the selections anew makes such states equal, and what does not look at them keeps them as
different as they were.
-/

namespace ModalEdit

namespace State

/-- The state with other selections. -/
def withSelections (s : State) (sels : List Selection) : State :=
  { s with editor := { s.editor with selections := sels } }

variable (s : State) (sels : List Selection)

@[simp] theorem document_withSelections :
    (s.withSelections sels).editor.document = s.editor.document := rfl

@[simp] theorem selections_withSelections : (s.withSelections sels).selections = sels := rfl

@[simp] theorem session_withSelections : (s.withSelections sels).session = s.session := rfl

/-- Nothing is left of selections that are set anew. -/
@[simp] theorem setCursors_withSelections (ps : List Position) :
    (s.withSelections sels).setCursors ps = s.setCursors ps := rfl

theorem edited_withSelections (after : Document) :
    (s.withSelections sels).edited after = (s.edited after).withSelections sels := rfl

theorem syncRegisters_withSelections :
    (s.withSelections sels).syncRegisters = s.syncRegisters.withSelections sels := by
  unfold syncRegisters withSelections
  dsimp only
  split <;> rfl

theorem writeRegisters_withSelections (entries : List RegisterEntry) :
    (s.withSelections sels).writeRegisters entries =
      (s.writeRegisters entries).withSelections sels := by
  unfold writeRegisters withSelections
  by_cases hnil : entries.isEmpty
  · simp only [hnil, ↓reduceIte]
  · simp only [hnil, Bool.false_eq_true, ↓reduceIte]
    split <;> rfl

end State

namespace Step

variable {α β : Type}

/-- From `s` the step `m` and from `s'` the step `m'` both end in the same result and in states
with `Q`, or both fail with the same error in states with `E`. -/
def EndAlike (m m' : Step α) (s s' : State) (Q : α → State → State → Prop)
    (E : State → State → Prop) : Prop :=
  match m s, m' s' with
  | .ok a t, .ok a' t' => a' = a ∧ Q a t t'
  | .error e t, .error e' t' => e' = e ∧ E t t'
  | _, _ => False

variable {m m' : Step α} {s s' : State} {d : Document} {Q Q' : α → State → State → Prop}
  {E E' : State → State → Prop}

@[simp] theorem endAlike_pure {a : α} : EndAlike (pure a) (pure a) s s' Q E ↔ Q a s s' :=
  and_iff_right rfl

@[simp] theorem endAlike_modify {f f' : State → State} {Q : PUnit → State → State → Prop} :
    EndAlike (modify f) (modify f') s s' Q E ↔ Q ⟨⟩ (f s) (f' s') :=
  and_iff_right rfl

@[simp] theorem endAlike_get_bind {f f' : State → Step α} :
    EndAlike (get >>= f) (get >>= f') s s' Q E ↔ EndAlike (f s) (f' s') s s' Q E := Iff.rfl

@[simp] theorem endAlike_modify_bind {g g' : State → State} {f f' : PUnit → Step α} :
    EndAlike (modify g >>= f) (modify g' >>= f') s s' Q E ↔
      EndAlike (f ⟨⟩) (f' ⟨⟩) (g s) (g' s') Q E := Iff.rfl

/-- Two runs go on with the results and in the states that they have come to. -/
theorem EndAlike.bind {f f' : α → Step β} {Q : β → State → State → Prop}
    (h : EndAlike m m' s s' (fun a t t' => EndAlike (f a) (f' a) t t' Q E) E) :
    EndAlike (m >>= f) (m' >>= f') s s' Q E := by
  unfold EndAlike at h ⊢
  cases hm : m s with
  | ok a t =>
    cases hm' : m' s' with
    | ok a' t' =>
      simp only [hm, hm'] at h
      obtain ⟨rfl, h⟩ := h
      rw [bind_of_ok hm, bind_of_ok hm']
      exact h
    | error e t' => simp only [hm, hm'] at h
  | error e t =>
    cases hm' : m' s' with
    | ok a' t' => simp only [hm, hm'] at h
    | error e' t' =>
      simp only [hm, hm'] at h
      rw [bind_of_error hm, bind_of_error hm']
      exact h

theorem EndAlike.cases (h : EndAlike m m' s s' Q E) :
    (∃ a t t', m s = .ok a t ∧ m' s' = .ok a t' ∧ Q a t t') ∨
      ∃ e t t', m s = .error e t ∧ m' s' = .error e t' ∧ E t t' := by
  unfold EndAlike at h
  split at h
  · rename_i a t a' t' hm hm'
    obtain ⟨rfl, h⟩ := h
    exact .inl ⟨_, t, t', hm, hm', h⟩
  · rename_i e t e' t' hm hm'
    obtain ⟨rfl, h⟩ := h
    exact .inr ⟨_, t, t', hm, hm', h⟩
  · exact h.elim

theorem EndAlike.mono (h : EndAlike m m' s s' Q E) (hQ : ∀ a t t', Q a t t' → Q' a t t')
    (hE : ∀ t t', E t t' → E' t t') : EndAlike m m' s s' Q' E' := by
  revert h
  simp only [EndAlike]
  cases m s <;> cases m' s' <;> simp only [imp_self]
  · exact And.imp_right (hQ _ _ _)
  · exact And.imp_right (hE _ _)

/-- What holds of each run by itself holds of both. -/
theorem EndAlike.and_ends (h : EndAlike m m' s s' Q E) {P P' : α → State → Prop}
    {F F' : EditorError → State → Prop} (hm : m.Ends s P F) (hm' : m'.Ends s' P' F') :
    EndAlike m m' s s' (fun a t t' => Q a t t' ∧ P a t ∧ P' a t')
      fun t t' => E t t' ∧ ∃ e, F e t ∧ F' e t' := by
  revert h hm hm'
  simp only [EndAlike, Ends]
  cases m s <;> cases m' s' <;> simp only [false_imp_iff]
  · rintro ⟨rfl, h⟩ hm hm'
    exact ⟨rfl, h, hm, hm'⟩
  · rintro ⟨rfl, h⟩ hm hm'
    exact ⟨rfl, h, _, hm, hm'⟩

theorem endAlike_withDocument {go go' : Document → Step α} (hd : s.editor.document = some d)
    (hd' : s'.editor.document = some d) (h : EndAlike (go d) (go' d) s s' Q E) :
    EndAlike (withDocument go) (withDocument go') s s' Q E := by
  simp only [EndAlike, withDocument, get_bind, hd, hd']
  exact h

/-- A batch is made in both documents or in neither. -/
theorem endAlike_commit {edits : List Edit} {Q : Document × Plan → State → State → Prop}
    (hd : s.editor.document = some d) (hd' : s'.editor.document = some d)
    (haccess : s'.access = s.access)
    (hQ : ∀ after plan, d.edit edits = .ok (after, plan) →
      Q (after, plan) (s.edited after) (s'.edited after))
    (hE : E s s') : EndAlike (commit d edits) (commit d edits) s s' Q E := by
  have hreadonly : s'.editor.readonly = s.editor.readonly := congrArg Prod.fst haccess
  unfold EndAlike commit Editor.commit
  cases h : d.edit edits with
  | error c => exact ⟨rfl, hE⟩
  | ok r =>
    obtain ⟨after, plan⟩ := r
    specialize hQ after plan h
    cases edits with
    | nil =>
      -- Nothing is sent to the editor, which shows the document as it was.
      obtain rfl : d = after := by
        rw [Document.edit_nil] at h
        cases h
        rfl
      rw [State.edited_of_document s hd, State.edited_of_document s' hd'] at hQ
      exact ⟨rfl, hQ⟩
    | cons e es =>
      obtain ⟨⟨doc, sels, clip, lang, cmds, shown, readonly, refusing⟩, session⟩ := s
      obtain ⟨⟨doc', sels', clip', lang', cmds', shown', readonly', refusing'⟩, session'⟩ := s'
      obtain rfl : readonly' = readonly := hreadonly
      cases readonly' with
      | false => exact ⟨rfl, hQ⟩
      | true => exact ⟨rfl, hE⟩

/-- A command of the editor is called in both runs or in neither. -/
theorem endAlike_execute {command : String} {args : Option Toml.Value}
    {Q : Unit → State → State → Prop} (haccess : s'.access = s.access)
    (hQ : ∀ cmds : List (String × Option Toml.Value) → List (String × Option Toml.Value), Q ()
      { s with editor := { s.editor with executed := cmds s.editor.executed } }
      { s' with editor := { s'.editor with executed := cmds s'.editor.executed } })
    (hE : E s s') : EndAlike (execute command args) (execute command args) s s' Q E := by
  have hrefusing : s'.editor.refusing = s.editor.refusing := congrArg Prod.snd haccess
  obtain ⟨⟨doc, sels, clip, lang, cmds, shown, readonly, refusing⟩, session⟩ := s
  obtain ⟨⟨doc', sels', clip', lang', cmds', shown', readonly', refusing'⟩, session'⟩ := s'
  obtain rfl : refusing' = refusing := hrefusing
  cases refusing' with
  | false => exact ⟨rfl, hQ (· ++ [(command, args)])⟩
  | true => exact ⟨rfl, hE⟩

end Step

end ModalEdit
