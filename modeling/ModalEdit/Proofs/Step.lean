import ModalEdit.Action
import ModalEdit.Proofs.Text.Plan

/-!
# What a step ends in

`Step.Ends m s Q E` is what must hold for the step `m` to lead from the state `s` to a result and a
state with `Q`, or to an error and a state with `E`. It is pushed through the parts of a step by
rewriting, so that a statement about a command becomes one about the states it passes through.

`Step.ends_commit` is the rule for the only part that edits: in the document that is open the batch
is made as a whole, or nothing changes.
-/

namespace ModalEdit

/-! ### What the changes of a state leave alone -/

namespace State

variable (s : State)

/-- Whether the editor refuses edits, and whether it refuses commands of its own. -/
def access : Bool × Bool := (s.editor.readonly, s.editor.refusing)

theorem readonly_eq : s.editor.readonly = s.access.1 := rfl

/-- The state with another text in the document that is open. -/
def edited (after : Document) : State :=
  { s with editor := { s.editor with document := some after } }

@[simp] theorem document_edited (d : Document) : (s.edited d).editor.document = some d := rfl

@[simp] theorem selections_edited (d : Document) : (s.edited d).selections = s.selections := rfl

@[simp] theorem session_edited (d : Document) : (s.edited d).session = s.session := rfl

@[simp] theorem mode_edited (d : Document) : (s.edited d).mode = s.mode := rfl

@[simp] theorem access_edited (d : Document) : (s.edited d).access = s.access := rfl

theorem edited_of_document {d : Document} (h : s.editor.document = some d) : s.edited d = s := by
  obtain ⟨⟨doc, sels, clip, lang, cmds, shown, readonly, refusing⟩, session⟩ := s
  cases h
  rfl

@[simp] theorem document_setMode (m : Mode) :
    (s.setMode m).editor.document = s.editor.document := rfl

@[simp] theorem selections_setMode (m : Mode) : (s.setMode m).selections = s.selections := rfl

@[simp] theorem mode_setMode (m : Mode) : (s.setMode m).mode = m := rfl

@[simp] theorem access_setMode (m : Mode) : (s.setMode m).access = s.access := rfl

@[simp] theorem document_select (sels : List Selection) :
    (s.select sels).editor.document = s.editor.document := rfl

@[simp] theorem selections_select (sels : List Selection) : (s.select sels).selections = sels := rfl

@[simp] theorem mode_select (sels : List Selection) : (s.select sels).mode = s.mode := rfl

@[simp] theorem access_select (sels : List Selection) : (s.select sels).access = s.access := rfl

@[simp] theorem document_setCursors (ps : List Position) :
    (s.setCursors ps).editor.document = s.editor.document := rfl

@[simp] theorem selections_setCursors (ps : List Position) :
    (s.setCursors ps).selections = ps.eraseDups.map .cursor := rfl

@[simp] theorem mode_setCursors (ps : List Position) : (s.setCursors ps).mode = s.mode := rfl

@[simp] theorem access_setCursors (ps : List Position) :
    (s.setCursors ps).access = s.access := rfl

@[simp] theorem registers_setMode (m : Mode) :
    (s.setMode m).session.registers = s.session.registers := rfl

@[simp] theorem registers_setCursors (ps : List Position) :
    (s.setCursors ps).session.registers = s.session.registers := rfl

@[simp] theorem clipboard_edited (d : Document) :
    (s.edited d).editor.clipboard = s.editor.clipboard := rfl

@[simp] theorem clipboard_setMode (m : Mode) :
    (s.setMode m).editor.clipboard = s.editor.clipboard := rfl

@[simp] theorem clipboard_setCursors (ps : List Position) :
    (s.setCursors ps).editor.clipboard = s.editor.clipboard := rfl

@[simp] theorem document_remember (f : Option Find) :
    (s.remember f).editor.document = s.editor.document := rfl

@[simp] theorem selections_remember (f : Option Find) :
    (s.remember f).selections = s.selections := rfl

@[simp] theorem mode_remember (f : Option Find) : (s.remember f).mode = s.mode := rfl

@[simp] theorem access_remember (f : Option Find) : (s.remember f).access = s.access := rfl

@[simp] theorem document_syncRegisters :
    s.syncRegisters.editor.document = s.editor.document := by
  unfold syncRegisters; split <;> rfl

@[simp] theorem selections_syncRegisters : s.syncRegisters.selections = s.selections := by
  unfold syncRegisters; split <;> rfl

@[simp] theorem mode_syncRegisters : s.syncRegisters.mode = s.mode := by
  unfold syncRegisters; split <;> rfl

@[simp] theorem access_syncRegisters : s.syncRegisters.access = s.access := by
  unfold syncRegisters; split <;> rfl

@[simp] theorem document_writeRegisters (es : List RegisterEntry) :
    (s.writeRegisters es).editor.document = s.editor.document := by
  unfold writeRegisters; split <;> (try split) <;> rfl

@[simp] theorem selections_writeRegisters (es : List RegisterEntry) :
    (s.writeRegisters es).selections = s.selections := by
  unfold writeRegisters; split <;> (try split) <;> rfl

@[simp] theorem mode_writeRegisters (es : List RegisterEntry) :
    (s.writeRegisters es).mode = s.mode := by
  unfold writeRegisters; split <;> (try split) <;> rfl

@[simp] theorem access_writeRegisters (es : List RegisterEntry) :
    (s.writeRegisters es).access = s.access := by
  unfold writeRegisters; split <;> (try split) <;> rfl

@[simp] theorem writeRegisters_nil : s.writeRegisters [] = s := rfl

/-- What has been written can be read. -/
theorem entries_writeRegisters {es : List RegisterEntry} (h : es ≠ []) :
    (s.writeRegisters es).session.registers.entries = es := by
  unfold writeRegisters
  rw [if_neg (by simpa using h)]
  split <;> rfl

end State

/-! ### Rules for the parts of a step -/

namespace Step

variable {α β : Type}

/-- From the state `s` the step ends in a result and a state with `Q`, or in an error and a state
with `E`. -/
def Ends (m : Step α) (s : State) (Q : α → State → Prop) (E : EditorError → State → Prop) : Prop :=
  match m s with
  | .ok a s' => Q a s'
  | .error e s' => E e s'

variable {s : State} {d : Document} {Q Q' : α → State → Prop} {E E' : EditorError → State → Prop}

@[simp] theorem ends_pure (a : α) : Ends (pure a) s Q E ↔ Q a s := Iff.rfl

@[simp] theorem ends_bind (m : Step α) (f : α → Step β) {Q : β → State → Prop} :
    Ends (m >>= f) s Q E ↔ Ends m s (fun a s' => Ends (f a) s' Q E) E := by
  simp only [Ends, bind, EStateM.bind]
  cases m s <;> rfl

@[simp] theorem ends_get {Q : State → State → Prop} : Ends get s Q E ↔ Q s s := Iff.rfl

@[simp] theorem ends_modify (f : State → State) {Q : PUnit → State → Prop} :
    Ends (modify f) s Q E ↔ Q ⟨⟩ (f s) := Iff.rfl

@[simp] theorem ends_throw (e : EditorError) : Ends (throw e : Step α) s Q E ↔ E e s := Iff.rfl

theorem Ends.mono {m : Step α} (h : Ends m s Q E) (hQ : ∀ a s', Q a s' → Q' a s')
    (hE : ∀ e s', E e s' → E' e s') : Ends m s Q' E' := by
  revert h
  unfold Ends
  split
  · exact hQ _ _
  · exact hE _ _

theorem Ends.and {m : Step α} (h : m.Ends s Q E) (h' : m.Ends s Q' E') :
    m.Ends s (fun a s' => Q a s' ∧ Q' a s') fun e s' => E e s' ∧ E' e s' := by
  revert h h'
  unfold Ends
  split <;> exact And.intro

theorem ends_of_ok {m : Step α} {a : α} {s' : State} (hm : m s = .ok a s') :
    Ends m s Q E ↔ Q a s' := by
  rw [Ends, hm]

theorem ends_of_error {m : Step α} {e : EditorError} {s' : State} (hm : m s = .error e s') :
    Ends m s Q E ↔ E e s' := by
  rw [Ends, hm]

theorem Ends.of_ok {m : Step α} {a : α} {s' : State} (h : Ends m s Q E) (hm : m s = .ok a s') :
    Q a s' := (ends_of_ok hm).1 h

theorem Ends.of_error {m : Step α} {e : EditorError} {s' : State} (h : Ends m s Q E)
    (hm : m s = .error e s') : E e s' := (ends_of_error hm).1 h

theorem bind_of_ok {m : Step α} {a : α} {s' : State} (hm : m s = .ok a s') (f : α → Step β) :
    (m >>= f) s = f a s' := by
  simp only [bind, EStateM.bind, hm]

theorem bind_of_error {m : Step α} {e : EditorError} {s' : State} (hm : m s = .error e s')
    (f : α → Step β) : (m >>= f) s = .error e s' := by
  simp only [bind, EStateM.bind, hm]

theorem get_bind (f : State → Step β) : (get >>= f) s = f s s := rfl

/-- A step that cannot end in an error succeeds. -/
theorem Ends.exists_ok {m : Step α} (h : Ends m s Q fun _ _ => False) :
    ∃ a s', m s = .ok a s' ∧ Q a s' := by
  revert h
  unfold Ends
  cases m s with
  | ok a s' => exact fun h => ⟨a, s', rfl, h⟩
  | error e s' => exact False.elim

/-- A step does not end in two ways. -/
theorem Ends.absurd {m : Step α} (h : Ends m s Q fun _ _ => False)
    (h' : Ends m s (fun a s' => ¬ Q a s') E) : False := by
  obtain ⟨a, s', hm, hQ⟩ := h.exists_ok
  exact h'.of_ok hm hQ

theorem ends_withDocument {go : Document → Step α} :
    Ends (withDocument go) s Q E ↔
      (∀ d, s.editor.document = some d → Ends (go d) s Q E) ∧
        (s.editor.document = none → E .noActiveEditor s) := by
  simp only [withDocument, ends_bind, ends_get]
  cases h : s.editor.document <;> simp

/-- With an open document it is this document that is worked on. -/
theorem ends_withDocument_of_some {go : Document → Step α} {d : Document}
    (hd : s.editor.document = some d) : Ends (withDocument go) s Q E ↔ Ends (go d) s Q E := by
  simp [ends_withDocument, hd]

/-- Calling a command of the editor only adds to the commands called, or changes nothing. -/
theorem ends_execute {command : String} {args : Option Toml.Value} {Q : Unit → State → Prop} :
    Ends (execute command args) s Q E ↔
      (s.editor.refusing = false → Q () { s with editor :=
        { s.editor with executed := s.editor.executed ++ [(command, args)] } }) ∧
      (s.editor.refusing = true → E (.command command "refused") s) := by
  simp only [Ends, execute, Editor.execute]
  cases s.editor.refusing <;> simp

/-- **A batch is made as a whole or not at all.** -/
theorem ends_commit {edits : List Edit} {Q : Document × Plan → State → Prop}
    (hd : s.editor.document = some d)
    (hQ : ∀ after plan, d.edit edits = .ok (after, plan) → Q (after, plan) (s.edited after))
    (hE : ∀ e, (∃ c, d.edit edits = .error c ∧ e = .edit c) ∨ s.editor.readonly = true → E e s) :
    Ends (commit d edits) s Q E := by
  unfold Ends commit Editor.commit
  cases h : d.edit edits with
  | error c => exact hE _ (.inl ⟨c, h, rfl⟩)
  | ok r =>
    obtain ⟨after, plan⟩ := r
    specialize hQ after plan h
    cases edits with
    | nil =>
      -- Nothing is sent to the editor, which shows the document as it was.
      obtain rfl : d = after := by
        rw [Document.edit_nil] at h
        cases h
        rfl
      rw [State.edited_of_document s hd] at hQ
      exact hQ
    | cons e es =>
      cases hro : s.editor.readonly with
      | false =>
        obtain ⟨⟨doc, sels, clip, lang, cmds, shown, readonly, refusing⟩, session⟩ := s
        cases hro
        exact hQ
      | true => exact hE _ (.inr hro)

/-- In an editor that takes edits a batch that is accepted is made. -/
theorem commit_of_edit {edits : List Edit} {after : Document} {plan : Plan}
    (hd : s.editor.document = some d) (hreadonly : s.editor.readonly = false)
    (h : d.edit edits = .ok (after, plan)) :
    commit d edits s = .ok (after, plan) (s.edited after) := by
  have hends : (commit d edits).Ends s (fun r s' => r = (after, plan) ∧ s' = s.edited after)
      fun _ _ => False := by
    refine ends_commit hd (fun after' plan' h' => ?_) fun e he => ?_
    · rw [h] at h'
      cases h'
      exact ⟨rfl, rfl⟩
    · rcases he with ⟨c, hc, -⟩ | hro
      · rw [h] at hc
        cases hc
      · rw [hreadonly] at hro
        cases hro
  obtain ⟨r, s', hcommit, rfl, rfl⟩ := hends.exists_ok
  exact hcommit

end Step

end ModalEdit
