import ModalEdit.Keymap
import ModalEdit.Proofs.Action.Call
import ModalEdit.Proofs.Command.Invariant

/-!
# Where actions are at home

Commands are made for certain modes, and so are the other things that keys can call. An action is at
home if it is offered only where it belongs. `Keymap.atHome_withBindings` checks this of every
built-in action and of the bindings of the user, and `Action.belongs_of_call` turns it into what the
call can rely on.
-/

namespace ModalEdit

/-- The keys of the text object name something at every position of every document. -/
def TextObject.AlwaysFound (objects : List TextObject) (keys : List Key) : Prop :=
  ∃ o ∈ objects, ∀ (d : Document) (u : Purpose) (p : Position),
    (o.compute d u p keys).result?.isSome

/-- The action is offered only in modes for which it is made, and a shorthand for a change never
finds nothing to change. -/
def Action.AtHome : Action → Prop
  | command _ modes _ c => ∀ m, modes.has m → c.home.has m
  | shorthand _ _ kind object =>
    kind = .change →
      TextObject.AlwaysFound (.wholeLine .change :: TextObject.defaults) object
  | _ => True

/-- Keys with which a motion leads somewhere from everywhere always name something. -/
theorem TextObject.alwaysFound_walked (kind : OperatorKind) {m : Motion} {keys : List Key}
    (hm : m ∈ Motion.defaults)
    (h : ∀ (d : Document) (u : Purpose) (p : Position),
      ((walked m).compute d u p keys).result?.isSome) :
    AlwaysFound (wholeLine kind :: defaults) keys :=
  ⟨.walked m, List.mem_cons_of_mem _ (List.mem_append_right _ (List.mem_map_of_mem hm)), h⟩

theorem TextObject.alwaysFound_left (kind : OperatorKind) :
    AlwaysFound (wholeLine kind :: defaults) [.char 'h'] :=
  alwaysFound_walked kind (List.mem_of_getElem? (i := 0) rfl) fun _ _ _ => rfl

theorem TextObject.alwaysFound_right (kind : OperatorKind) :
    AlwaysFound (wholeLine kind :: defaults) [.char 'l'] :=
  alwaysFound_walked kind (List.mem_of_getElem? (i := 1) rfl) fun _ _ _ => rfl

theorem TextObject.alwaysFound_lineEnd (kind : OperatorKind) :
    AlwaysFound (wholeLine kind :: defaults) [.char '$'] :=
  alwaysFound_walked kind (List.mem_of_getElem? (i := 11) rfl) fun _ _ _ => rfl

theorem TextObject.alwaysFound_line (kind : OperatorKind) :
    AlwaysFound (wholeLine kind :: defaults) [kind.key] := by
  refine ⟨wholeLine kind, List.mem_cons_self, fun _ _ _ => ?_⟩
  cases kind <;> rfl

theorem Keymap.atHome_edits : ∀ a ∈ edits, a.AtHome := by
  simp only [edits, onChar, List.forall_mem_cons, Action.AtHome, List.not_mem_nil, false_imp_iff,
    implies_true, and_true, true_and]
  refine ⟨?_, ?_, ?_, ?_, ?_, ?_, ?_, ?_, ?_⟩ <;> intro m <;> cases m <;> decide

theorem Keymap.atHome_visual : ∀ a ∈ visual, a.AtHome := by
  simp only [visual, onChar, onSelection, List.forall_mem_cons, Action.AtHome, List.not_mem_nil,
    false_imp_iff, implies_true, and_true, true_and]
  refine ⟨?_, ?_, ?_, ?_, ?_⟩ <;> intro m <;> cases m <;> decide

theorem Keymap.atHome_operators : ∀ a ∈ operators, a.AtHome := by
  simp only [operators, onChar, shorthand, List.forall_mem_cons, Action.AtHome, List.not_mem_nil,
    false_imp_iff, implies_true, and_true]
  refine ⟨?_, ?_, nofun, nofun, nofun, fun _ => TextObject.alwaysFound_lineEnd .change,
    fun _ => TextObject.alwaysFound_right .change, fun _ => TextObject.alwaysFound_line .change,
    nofun⟩ <;> intro m <;> cases m <;> decide

/-- Every built-in action and every binding of the user is at home. -/
theorem Keymap.atHome_withBindings (bs : List Binding) : ∀ a ∈ withBindings bs, a.AtHome := by
  intro a ha
  simp only [withBindings, builtin, List.mem_append] at ha
  rcases ha with hbound | ((hedit | hvisual) | hoperator) | hmotion
  · obtain ⟨b, -, rfl⟩ := List.mem_map.1 hbound
    trivial
  · exact atHome_edits a hedit
  · exact atHome_visual a hvisual
  · exact atHome_operators a hoperator
  · obtain ⟨m, -, rfl⟩ := List.mem_map.1 hmotion
    trivial

/-! ### What a call can rely on -/

/-- In the mode `m` the call finds what it is made for. -/
def Call.Belongs (m : Mode) : Call → Prop
  | command c _ => c.home.has m
  | type _ => m = .insert
  | operate _ | selectObject _ => m.isVisual = true
  | shorthand kind object =>
    kind = .change → TextObject.AlwaysFound (.wholeLine .change :: TextObject.defaults) object
  | compose .. => True
  | move .. => m.isVisual = true ∨ m = .normal
  | execute _ => True

theorem Match.called_eq_inr {m : Match} {f : Option Key → List Key → Called} {c : Call}
    (h : m.called f = .inr c) : ∃ key rest, f key rest = .inr c := by
  cases m with
  | full captured rest => exact ⟨_, _, h⟩
  | partly => cases h
  | none => cases h

/-- The action is one that can make the call. -/
def Call.MadeBy : Call → Action → Prop
  | command c _, a => ∃ name modes pattern, a = .command name modes pattern c
  | shorthand kind object, a => ∃ name pattern, a = .shorthand name pattern kind object
  | move m _, a => a = .motion m
  | execute b, a => a = .bound b
  | _, _ => True

theorem Action.madeBy_of_call {a : Action} {keys : List Key} {c : Call}
    (h : a.call keys = .inr c) : c.MadeBy a := by
  cases a with
  | command | onSelection | shorthand | bound =>
    rw [call] at h
    obtain ⟨key, rest, h⟩ := Match.called_eq_inr h
    cases h
    simp [Call.MadeBy]
  | typing =>
    simp only [call] at h
    split at h
    · split at h <;> cases h
      trivial
    · cases h
  | selectObject =>
    cases h
    trivial
  | operator kind =>
    rw [call] at h
    obtain ⟨key, rest, h⟩ := Match.called_eq_inr h
    split at h <;> cases h
    trivial
  | motion m =>
    rw [call] at h
    split at h <;> cases h
    rfl

/-- In a mode in which it is offered, an action at home calls only what belongs there. -/
theorem Action.belongs_of_call {a : Action} (ha : a.AtHome) {m : Mode} (hmode : a.modes.has m)
    {keys : List Key} {c : Call} (h : a.call keys = .inr c) : c.Belongs m := by
  cases a with
  | command name modes pattern c =>
    rw [call] at h
    obtain ⟨key, rest, h⟩ := Match.called_eq_inr h
    cases h
    exact ha m hmode
  | typing =>
    have hinsert : m = .insert := by
      cases m <;> simp [modes, ModeSet.onlyInsert, ModeSet.has] at hmode ⊢
    simp only [call] at h
    split at h
    · split at h <;> cases h
      exact hinsert
    · cases h
  | onSelection name pattern kind =>
    rw [call] at h
    obtain ⟨key, rest, h⟩ := Match.called_eq_inr h
    cases h
    exact ModeSet.isVisual_of_anyVisual hmode
  | selectObject =>
    cases h
    exact ModeSet.isVisual_of_anyVisual hmode
  | shorthand name pattern kind object =>
    rw [call] at h
    obtain ⟨key, rest, h⟩ := Match.called_eq_inr h
    cases h
    exact ha
  | operator kind =>
    rw [call] at h
    obtain ⟨key, rest, h⟩ := Match.called_eq_inr h
    split at h <;> cases h
    trivial
  | motion motion =>
    have hmode : m.isVisual = true ∨ m = .normal := by
      cases m <;> simp [modes, ModeSet.normalAndVisual, ModeSet.has, Mode.isVisual] at hmode ⊢
    rw [call] at h
    split at h <;> cases h
    exact hmode
  | bound b =>
    rw [call] at h
    obtain ⟨key, rest, h⟩ := Match.called_eq_inr h
    cases h
    trivial

end ModalEdit
