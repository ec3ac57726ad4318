import Mathlib.Data.List.Forall2
import ModalEdit.Proofs.Engine.Frame
import ModalEdit.Proofs.Span.Called

/-!
# Which action keys reach

Every built-in action of Normal mode before the motions is called only by keys that begin with a key
of its own (`Keymap.beginsWith_normalKeys`). So all others decline keys that begin with it
(`Keymap.Owns.eq_or_spares`): if the action runs, the key ends as it does (`Keymap.ends_offer`), and
if it needs more keys, the key waits (`Keymap.offer_waits`).

The same holds of the visual modes and their actions before the one that selects a text object
(`Keymap.beginsWith_visualKeys`), so the key of an operator runs it on the selections
(`Keymap.ends_offer_visual`).
-/

namespace ModalEdit

variable {k : Key} {p : Pattern}

theorem Pattern.Spares.called (h : p.Spares k) (keys : List Key)
    (f : Option Key → List Key → Called) :
    ∃ r, r ≠ .executed ∧ (p.parse (k :: keys)).called f = .inl r := by
  have hp := h keys
  cases hparse : p.parse (k :: keys) with
  | none => exact ⟨.noMatch, nofun, rfl⟩
  | partly => exact ⟨.needsMore, nofun, rfl⟩
  | full captured rest => simp [hparse, Match.isFull] at hp

/-- Only keys that begin with `k` match in full. -/
def Pattern.BeginsWith (k : Key) (p : Pattern) : Prop := ∀ k' ≠ k, p.Spares k'

theorem Pattern.beginsWith_literal (k : Key) (ks : List Key) : (literal (k :: ks)).BeginsWith k :=
  fun _ hne => spares_literal hne.symm

theorem Pattern.beginsWith_after {c : Char} (hc : IsPlain c) (var : List Char) :
    (placeholder (.after [.char c] var)).BeginsWith (.char c) :=
  fun _ hne => spares_after hc hne var

namespace Action

/-- The action declines all keys that begin with `k`. -/
def Spares (k : Key) (a : Action) : Prop :=
  ∀ settings keys s, a.Declines settings (k :: keys) s

/-- Only keys that begin with `k` call the action. -/
def BeginsWith (k : Key) (a : Action) : Prop := ∀ k' ≠ k, a.Spares k'

/-- An action spares the keys if they call nothing. -/
theorem spares_of_call {a : Action}
    (h : ∀ keys, ∃ r, r ≠ .executed ∧ a.call (k :: keys) = .inl r) : a.Spares k := by
  intro settings keys s
  obtain ⟨r, hr, hcall⟩ := h keys
  refine ⟨r, hr, ?_⟩
  rw [answer_eq, hcall]
  rfl

theorem beginsWith_command (h : p.BeginsWith k) (name : String) (modes : ModeSet) (c : Command) :
    (command name modes p c).BeginsWith k := fun k' hne => by
  refine spares_of_call fun keys => ?_
  rw [call]
  exact (h k' hne).called keys _

theorem beginsWith_onSelection (h : p.BeginsWith k) (name : String) (kind : OperatorKind) :
    (onSelection name p kind).BeginsWith k := fun k' hne => by
  refine spares_of_call fun keys => ?_
  rw [call]
  exact (h k' hne).called keys _

theorem beginsWith_shorthand (h : p.BeginsWith k) (name : String) (kind : OperatorKind)
    (object : List Key) : (shorthand name p kind object).BeginsWith k := fun k' hne => by
  refine spares_of_call fun keys => ?_
  rw [call]
  exact (h k' hne).called keys _

theorem beginsWith_operator (kind : OperatorKind) : (operator kind).BeginsWith kind.key :=
  fun k' hne => by
  refine spares_of_call fun keys => ⟨.noMatch, nofun, ?_⟩
  simp only [call, Pattern.parseLiteral, hne.symm, ↓reduceIte]
  rfl

end Action

namespace Keymap

/-- Where every action has a key of its own, keys that begin with the key of one are declined by the
others. -/
theorem eq_or_spares_of_nodup {ks : List Key} {front : Keymap}
    (hbegins : List.Forall₂ Action.BeginsWith ks front) (hnodup : ks.Nodup) {a : Action}
    (h : (k, a) ∈ ks.zip front) : ∀ b ∈ front, b = a ∨ b.Spares k := by
  intro b hb
  obtain ⟨hlength, hbegins⟩ := List.forall₂_iff_zip.1 hbegins
  have hactions : (ks.zip front).map Prod.snd = front :=
    List.map_snd_zip (Nat.le_of_eq hlength.symm)
  have hkeys : (ks.zip front).map Prod.fst = ks := List.map_fst_zip (Nat.le_of_eq hlength)
  rw [← hactions] at hb
  obtain ⟨⟨k', b⟩, hk', rfl⟩ := List.mem_map.1 hb
  by_cases hkk : k = k'
  · -- The keys differ from each other, so the two actions are the same.
    subst hkk
    have heq := List.inj_on_of_nodup_map (hkeys ▸ hnodup) hk' h rfl
    exact .inl (Prod.mk.inj heq).2
  · exact .inr (hbegins hk' k hkk)

/-- They all decline keys that begin with a key of none. -/
theorem spares_of_not_mem {ks : List Key} {front : Keymap}
    (hbegins : List.Forall₂ Action.BeginsWith ks front) (hk : k ∉ ks) :
    ∀ b ∈ front, b.Spares k := by
  induction hbegins with
  | nil => exact nofun
  | cons hfirst _ ih =>
    obtain ⟨hne, hrest⟩ := List.ne_and_not_mem_of_not_mem_cons hk
    exact List.forall_mem_cons.2 ⟨hfirst k hne, ih hrest⟩

/-- The built-in actions before the motions. -/
def beforeMotions : Keymap := edits ++ visual ++ operators

theorem forMode_builtin (m : Mode) :
    builtin.forMode m = beforeMotions.forMode m ++ forMode (Motion.defaults.map .motion) m :=
  List.filter_append _ _

/-- The keys with which the actions of Normal mode before the motions are called, in their order. -/
def normalKeys : List Key :=
  .esc :: ['i', 'a', 'I', 'A', 'o', 'O', 'r', 'J', 'v', 'V', 'p', 'P', 'x', 'X', 'D', 'C', 's', 'S',
    'Y'].map .char ++ [OperatorKind.delete, .yank, .change].map OperatorKind.key

/-- **Every action before the motions has a key of its own** in Normal mode. -/
theorem beginsWith_normalKeys :
    List.Forall₂ Action.BeginsWith normalKeys (beforeMotions.forMode .normal) := by
  have hreplace : (Pattern.placeholder (.after [.char 'r'] "char".toList)).BeginsWith
      (.char 'r') := Pattern.beginsWith_after (by decide) _
  repeat' first
    | exact .nil
    | refine List.Forall₂.cons ?_ ?_
  -- A command, an operator with its object, or an operator that an object follows.
  all_goals first
    | exact Action.beginsWith_command (Pattern.beginsWith_literal _ _) _ _ _
    | exact Action.beginsWith_command hreplace _ _ _
    | exact Action.beginsWith_shorthand (Pattern.beginsWith_literal _ _) _ _ _
    | exact Action.beginsWith_operator _

theorem nodup_normalKeys : normalKeys.Nodup := by decide

/-- The motions spare these keys. -/
theorem spares_motion {m : Motion} (hm : m ∈ Motion.defaults) (hk : k ∈ normalKeys) :
    (Action.motion m).Spares k := by
  have hfree : ∀ k ∈ normalKeys, k ∉ TextObject.motionLeads := by decide +kernel
  refine Action.spares_of_call fun keys => ⟨.noMatch, nofun, ?_⟩
  rw [Action.call, TextObject.parse_of_not_mem_motionLeads hm (hfree k hk)]

/-- The action is called by keys that begin with `k`. -/
def Owns (k : Key) (a : Action) : Prop := (k, a) ∈ normalKeys.zip (beforeMotions.forMode .normal)

theorem owns_operator (kind : OperatorKind) : Owns kind.key (.operator kind) := by
  cases kind with
  | delete => exact List.mem_of_getElem? (i := 20) rfl
  | yank => exact List.mem_of_getElem? (i := 21) rfl
  | change => exact List.mem_of_getElem? (i := 22) rfl

theorem Owns.mem {a : Action} (h : Owns k a) : a ∈ beforeMotions.forMode .normal :=
  (List.of_mem_zip h).2

theorem Owns.mem_normalKeys {a : Action} (h : Owns k a) : k ∈ normalKeys := (List.of_mem_zip h).1

/-- Keys that begin with the key of an action are declined by the others. -/
theorem Owns.eq_or_spares {a : Action} (h : Owns k a) :
    ∀ b ∈ beforeMotions.forMode .normal, b = a ∨ b.Spares k :=
  eq_or_spares_of_nodup beginsWith_normalKeys nodup_normalKeys h

/-! ### What the key ends in -/

variable {settings : Settings} {keys : List Key} {s : State} {a : Action}

/-- If the action runs, the key ends as the action does. -/
theorem ends_offer {before : Keymap} (rest : Keymap)
    (hothers : ∀ b ∈ before, b = a ∨ b.Declines settings keys s) (hmem : a ∈ before)
    (waiting : Bool) {Q : Offer → State → Prop} {E : EditorError → State → Prop}
    (h : (a.answer settings keys).Ends s
      (fun r s' => r = .executed ∧ Q (.executed a.name) s') E) :
    ((before ++ rest).offer settings keys waiting).Ends s Q E := by
  induction before generalizing waiting with
  | nil => cases hmem
  | cons b before ih =>
    obtain ⟨hb, hothers⟩ := List.forall_mem_cons.1 hothers
    simp only [List.cons_append, offer, Step.ends_bind]
    by_cases heq : b = a
    · subst heq
      refine h.mono (fun r s' hr => ?_) fun _ _ he => he
      obtain ⟨rfl, hQ⟩ := hr
      exact hQ
    · obtain ⟨r, hr, hanswer⟩ := hb.resolve_left heq
      have hmem := (List.mem_cons.1 hmem).resolve_left (Ne.symm heq)
      rw [Step.ends_of_ok hanswer]
      cases r with
      | executed => exact absurd rfl hr
      | needsMore => exact ih hothers hmem true
      | noMatch => exact ih hothers hmem waiting

/-- If no action runs and one of them needs more keys, the key waits. -/
theorem offer_waits {k : Keymap} (hall : ∀ b ∈ k, b.Declines settings keys s) {waiting : Bool}
    (h : waiting = true ∨ ∃ a ∈ k, a.answer settings keys s = .ok .needsMore s) :
    k.offer settings keys waiting s = .ok (.declined true) s := by
  induction k generalizing waiting with
  | nil =>
    obtain rfl := h.resolve_right fun ⟨a, ha, _⟩ => nomatch ha
    rfl
  | cons b k ih =>
    obtain ⟨⟨r, hr, hanswer⟩, hall⟩ := List.forall_mem_cons.1 hall
    rw [offer, Step.bind_of_ok hanswer]
    cases r with
    | executed => exact absurd rfl hr
    | needsMore => exact ih hall (.inl rfl)
    | noMatch =>
      refine ih hall (h.imp_right ?_)
      rintro ⟨a, ha, hneeds⟩
      refine ⟨a, (List.mem_cons.1 ha).resolve_left ?_, hneeds⟩
      rintro rfl
      rw [hanswer] at hneeds
      cases hneeds

/-! ### Visual mode -/

/-- The actions of Visual mode before the one that selects a text object. -/
def visualFront : Keymap := (builtin.forMode .visual).take 11

/-- The keys with which they are called, in their order. -/
def visualKeys : List Key :=
  .esc :: ['v', 'V', 'o', 'd', 'x', 'y', 'c', 's', 'p', 'P'].map .char

/-- **Each of these actions has a key of its own** in Visual mode. -/
theorem beginsWith_visualKeys : List.Forall₂ Action.BeginsWith visualKeys visualFront := by
  repeat' first
    | exact .nil
    | refine List.Forall₂.cons ?_ ?_
  all_goals first
    | exact Action.beginsWith_command (Pattern.beginsWith_literal _ _) _ _ _
    | exact Action.beginsWith_onSelection (Pattern.beginsWith_literal _ _) _ _

theorem nodup_visualKeys : visualKeys.Nodup := by decide

theorem forMode_visual :
    builtin.forMode .visual =
      visualFront ++ .selectObject :: Keymap.forMode (Motion.defaults.map .motion) .visual := rfl

/-- The operator on the selections that has the key of an operator. -/
theorem exists_visualOperator (kind : OperatorKind) : ∃ c, kind.key = .char c ∧
    (kind.key, Action.onSelection ("visual-" ++ kind.name) (.ofChar c) kind) ∈
      visualKeys.zip visualFront := by
  cases kind with
  | delete => exact ⟨'d', rfl, List.mem_of_getElem? (i := 4) rfl⟩
  | yank => exact ⟨'y', rfl, List.mem_of_getElem? (i := 6) rfl⟩
  | change => exact ⟨'c', rfl, List.mem_of_getElem? (i := 7) rfl⟩

end Keymap

namespace Action

variable {settings : Settings} {s : State} {d : Document} {Q : State → Prop}
  {E : EditorError → State → Prop}

/-- Keys that call a command end as the command does on the key captured. -/
theorem ends_command {name : String} {modes : ModeSet} {p : Pattern} {c : Command}
    {keys rest : List Key} {captured : Option (List Char × Key)} (hd : s.editor.document = some d)
    (hparse : p.parse keys = .full captured rest)
    (h : (c.run settings d (captured.map (·.2))).Ends s (fun _ s' => Q s') E) :
    ((command name modes p c).answer settings keys).Ends s (fun r s' => r = .executed ∧ Q s')
      E := by
  simp only [answer, hparse]
  refine (Step.ends_withDocument_of_some hd).2 ?_
  rw [Step.ends_bind]
  exact h.mono (fun _ _ hQ => ⟨rfl, hQ⟩) fun _ _ h => h

/-- Keys that begin with that of an operator on the selections end as the operator does. -/
theorem ends_onSelection (name : String) (c : Char) {kind : OperatorKind} (rest : List Key)
    (hd : s.editor.document = some d)
    (h : (Step.operate settings d kind).Ends s (fun _ s' => Q s') E) :
    ((onSelection name (.ofChar c) kind).answer settings (.char c :: rest)).Ends s
      (fun r s' => r = .executed ∧ Q s') E := by
  simp only [answer, Pattern.parse_ofChar]
  refine (Step.ends_withDocument_of_some hd).2 ?_
  rw [Step.ends_bind]
  exact h.mono (fun _ _ hQ => ⟨rfl, hQ⟩) fun _ _ h => h

end Action

namespace Keymap

variable {settings : Settings} {keys : List Key} {s : State} {d : Document}

/-- In visual line mode the actions are the same. -/
theorem forMode_visualLine : builtin.forMode .visualLine = builtin.forMode .visual := rfl

theorem forMode_of_isVisual {m : Mode} (hm : m.isVisual = true) :
    builtin.forMode m = builtin.forMode .visual := by
  cases m with
  | visual => rfl
  | visualLine => exact forMode_visualLine
  | normal | insert => cases hm

/-- Keys that begin with that of an action of Visual mode end as the action does, if it runs. -/
theorem ends_offer_visualFront {k : Key} {a : Action} (rest : List Key)
    (hmem : (k, a) ∈ visualKeys.zip visualFront) {Q : Offer → State → Prop}
    {E : EditorError → State → Prop}
    (h : (a.answer settings (k :: rest)).Ends s
      (fun r s' => r = .executed ∧ Q (.executed a.name) s') E) :
    ((builtin.forMode .visual).offer settings (k :: rest) false).Ends s Q E := by
  have hothers : ∀ b ∈ visualFront, b = a ∨ b.Declines settings (k :: rest) s := fun b hb =>
    (eq_or_spares_of_nodup beginsWith_visualKeys nodup_visualKeys hmem b hb).imp_right
      fun hspares => hspares settings rest s
  rw [forMode_visual]
  exact ends_offer _ hothers (List.of_mem_zip hmem).2 false h

/-- **In Visual mode keys that begin with an operator run it on the selections.** -/
theorem ends_offer_visual (kind : OperatorKind) (rest : List Key)
    (hd : s.editor.document = some d) {Q : State → Prop} {E : EditorError → State → Prop}
    (h : (Step.operate settings d kind).Ends s (fun _ s' => Q s') E) :
    ((builtin.forMode .visual).offer settings (kind.key :: rest) false).Ends s
      (fun o s' => o = .executed ("visual-" ++ kind.name) ∧ Q s') E := by
  obtain ⟨c, hkey, hmem⟩ := exists_visualOperator kind
  have hanswer := Action.ends_onSelection ("visual-" ++ kind.name) c rest hd h
  rw [← hkey] at hanswer
  exact ends_offer_visualFront rest hmem
    (hanswer.mono (fun _ _ hr => ⟨hr.1, rfl, hr.2⟩) fun _ _ h => h)

end Keymap

end ModalEdit
