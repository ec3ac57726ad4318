import ModalEdit.Proofs.Action.Acts
import ModalEdit.Proofs.Engine.Run

/-!
# No key is dropped behind an action that runs

Most actions look only at the front of the keys and would drop what is behind. It never comes to
that: whatever is pending has been offered to all actions of the mode, key by key and in the same
state, and all of them have declined (`Engine.PendingDeclined`). An action that would leave
something over could have run on fewer keys (`Action.usesUp_or_acts`), and would have done so when
these were all that had been typed.
-/

namespace ModalEdit

variable {s : State} {d : Document} {settings : Settings} {keys : List Key}

/-- **What offering keys comes to**: the first action that does not decline runs, or all decline. -/
theorem Keymap.offer_cases (k : Keymap) (settings : Settings) (keys : List Key) (waiting : Bool)
    (s : State) :
    (k.offer settings keys waiting).Ends s (fun o s' =>
      match o with
      | .executed name => ∃ before a rest, k = before ++ a :: rest ∧
        (∀ b ∈ before, b.Declines settings keys s) ∧
        a.answer settings keys s = .ok .executed s' ∧ a.name = name
      | .declined _ => s' = s ∧ ∀ a ∈ k, a.Declines settings keys s) fun _ _ => True := by
  induction k generalizing waiting with
  | nil => exact ⟨rfl, fun a ha => absurd ha List.not_mem_nil⟩
  | cons a k ih =>
    have hrest (ha : a.Declines settings keys s) (waiting : Bool) :
        (offer settings keys waiting k).Ends s (fun o s' =>
          match o with
          | .executed name => ∃ before b rest, a :: k = before ++ b :: rest ∧
            (∀ b ∈ before, b.Declines settings keys s) ∧
            b.answer settings keys s = .ok .executed s' ∧ b.name = name
          | .declined _ => s' = s ∧ ∀ b ∈ a :: k, b.Declines settings keys s)
          fun _ _ => True := by
      refine (ih waiting).mono (fun o s' h => ?_) fun _ _ h => h
      cases o with
      | executed name =>
        obtain ⟨before, b, rest, rfl, hbefore, hb⟩ := h
        exact ⟨a :: before, b, rest, rfl, List.forall_mem_cons.2 ⟨ha, hbefore⟩, hb⟩
      | declined waiting => exact ⟨h.1, List.forall_mem_cons.2 ⟨ha, h.2⟩⟩
    rw [offer, Step.ends_bind]
    have hframe := a.frame settings keys s
    cases h : a.answer settings keys s with
    | error e s' =>
      rw [Step.ends_of_error h]
      trivial
    | ok r s' =>
      rw [Step.ends_of_ok h]
      have hframed : s.Framed r s' := hframe.of_ok h
      cases r with
      | executed => exact ⟨[], a, k, rfl, by simp, h, rfl⟩
      | needsMore =>
        obtain rfl := hframed (by decide)
        exact hrest ⟨.needsMore, by decide, h⟩ true
      | noMatch =>
        obtain rfl := hframed (by decide)
        exact hrest ⟨.noMatch, by decide, h⟩ waiting

/-- An action that declines the keys does not act on them. -/
theorem Action.Declines.not_acts {a : Action} (h : a.Declines settings keys s)
    (hd : s.editor.document = some d) : ¬ a.Acts keys d s := by
  obtain ⟨r, hr, hanswer⟩ := h
  exact fun hacts => hr (((a.ends_acts settings keys hd).of_ok hanswer).2 hacts)

namespace Engine

variable {e : Engine} {ed : Editor}

/-- No action of the mode acts on what is pending or on a beginning of it. -/
def PendingDeclined (e : Engine) (ed : Editor) : Prop :=
  ∀ d, ed.document = some d → ∀ keys, keys ≠ [] → keys <+: e.session.pending →
    ∀ a ∈ e.keymap.forMode e.session.mode, ¬ a.Acts keys d (e.state ed)

theorem pendingDeclined_of_nil (h : e.session.pending = []) : e.PendingDeclined ed := by
  intro d hd keys hne hprefix
  rw [h] at hprefix
  exact absurd (List.prefix_nil.1 hprefix) hne

/-- **What one key keeps**: all that is pending has been declined. -/
theorem handleKey_pendingDeclined (h : e.PendingDeclined ed) (key : Key) :
    (e.handleKey ed key).2.1.PendingDeclined (e.handleKey ed key).2.2 := by
  unfold handleKey
  split
  · exact h
  · dsimp only
    have hcases := (e.keymap.forMode e.session.mode).offer_cases e.settings
      (e.session.pending ++ [key]) false ⟨ed, e.session⟩
    have hframe := (e.keymap.forMode e.session.mode).frame e.settings
      (e.session.pending ++ [key]) false ⟨ed, e.session⟩
    split
    · exact pendingDeclined_of_nil rfl
    · rename_i s' hoffer
      obtain ⟨rfl, hdeclined⟩ := hcases.of_ok hoffer
      intro d hd keys hne hprefix a ha
      rcases List.prefix_concat_iff.1 hprefix with rfl | hprefix
      · exact (hdeclined a ha).not_acts hd
      · exact h d hd keys hne hprefix a ha
    · exact pendingDeclined_of_nil rfl
    · rename_i c s' hoffer
      -- A paste that fails may have adopted the clipboard, to which no action looks.
      rcases hframe.of_error hoffer with rfl | ⟨-, rfl⟩
      · exact h
      · unfold State.syncRegisters
        split
        · exact h
        · intro d hd keys hne hprefix a ha
          exact (not_congr (a.acts_registers _)).2 (h d hd keys hne hprefix a ha)

theorem handleKeys_pendingDeclined (h : e.PendingDeclined ed) (keys : List Key) :
    (e.handleKeys ed keys).2.1.PendingDeclined (e.handleKeys ed keys).2.2 := by
  induction keys generalizing e ed with
  | nil => exact h
  | cons key keys ih => exact ih (handleKey_pendingDeclined h key)

/-- Of the actions that are offered the keys one after the other, all before `a` decline, and `a`
runs and uses up the keys. -/
structure RunsOn (e : Engine) (ed : Editor) (keys : List Key) (a : Action) : Prop where
  /-- The action is the first of the mode that does not decline, and it runs. -/
  runs : ∃ before rest s', e.keymap.forMode e.session.mode = before ++ a :: rest ∧
    (∀ b ∈ before, b.Declines e.settings keys (e.state ed)) ∧
    a.answer e.settings keys (e.state ed) = .ok .executed s'
  /-- Its pattern matches the keys in full and leaves nothing. -/
  usesUp : ∃ d, ed.document = some d ∧ a.UsesUp keys d (e.state ed)

theorem exists_runsOn (h : e.PendingDeclined ed) (hexact : ∀ a ∈ e.keymap, a.Exact) {key : Key}
    {name : String} (hkey : (e.handleKey ed key).1 = .executed name) :
    ∃ a, a.name = name ∧ e.RunsOn ed (e.session.pending ++ [key]) a := by
  cases hdoc : ed.document with
  | none => simp [handleKey, hdoc] at hkey
  | some d =>
    have hcases := (e.keymap.forMode e.session.mode).offer_cases e.settings
      (e.session.pending ++ [key]) false ⟨ed, e.session⟩
    simp only [handleKey, hdoc, Option.isNone_some, Bool.false_eq_true, ↓reduceIte] at hkey
    cases hoffer : (e.keymap.forMode e.session.mode).offer e.settings
        (e.session.pending ++ [key]) false ⟨ed, e.session⟩ with
    | error c s' => simp [hoffer] at hkey
    | ok o s' =>
      rw [hoffer] at hkey
      cases o with
      | declined waiting => cases waiting <;> cases hkey
      | executed name' =>
        cases hkey
        obtain ⟨before, a, rest, hk, hbefore, hanswer, hname⟩ := hcases.of_ok hoffer
        have hmem : a ∈ e.keymap.forMode e.session.mode := by
          rw [hk]
          exact List.mem_append_right _ List.mem_cons_self
        have hacts := ((a.ends_acts e.settings _ hdoc).of_ok hanswer).1 rfl
        refine ⟨a, hname, ⟨before, rest, s', hk, hbefore, hanswer⟩, d, hdoc, ?_⟩
        refine (Action.usesUp_or_acts (hexact a (List.mem_filter.1 hmem).1) hacts).resolve_right ?_
        -- On fewer keys the action would have run before, when these were pending.
        rintro ⟨taken, hne, hprefix, hproper, htaken⟩
        have hpending := (List.prefix_concat_iff.1 hprefix).resolve_left hproper
        exact h d hdoc taken hne hpending a hmem htaken

/-- **No key is dropped by an action that runs.** From a fresh engine, with any bindings that a
configuration can have: whenever a key makes an action run, the action's own pattern matches all
keys typed since the last command, and leaves nothing over. -/
theorem handleKeys_usesUp (e : Engine) (ed : Editor) (bs : List Binding) (typed : List Key)
    (key : Key) (hk : e.keymap = .withBindings bs)
    (hbs : ∀ b ∈ bs, ∃ index v, Binding.read index v = .ok b) (hfresh : e.session.pending = []) :
    match e.handleKeys ed typed with
    | (_, e', ed') => ∀ name, (e'.handleKey ed' key).1 = .executed name →
      ∃ a, a.name = name ∧ e'.RunsOn ed' (e'.session.pending ++ [key]) a := by
  intro name hname
  have hexact := Keymap.exact_withBindings fun b hb => by
    obtain ⟨index, v, hread⟩ := hbs b hb
    exact Binding.keys_ne_nil hread
  have hkeymap := (e.handleKeys_keeps ed typed).1.trans hk
  refine exists_runsOn (handleKeys_pendingDeclined (pendingDeclined_of_nil hfresh) typed) ?_ hname
  rw [hkeymap]
  exact hexact

/-- The inner word is deleted, with a binding whose keys begin as the object's do. -/
theorem handleKeys_usesUp_innerWord :
    let v : Toml.Value := .table [("command", .string "fmt"), ("keys", .string "iz")]
    let b : Binding := ⟨[.char 'i', .char 'z'], .onlyNormal, "fmt", none⟩
    let e : Engine := { keymap := .withBindings [b] }
    let ed := Editor.ofDocument (.ofText ['a', 'b', ' ', 'c']) [⟨0, 1⟩]
    let typed := [Key.char 'd', .char 'i']
    e.keymap = .withBindings [b] ∧ Binding.read 0 v = .ok b ∧ e.session.pending = [] ∧
    match e.handleKeys ed typed with
    | (_, e', ed') => (e'.handleKey ed' (.char 'w')).1 = .executed "operator-delete" ∧
      e'.session.pending = typed ∧
      ∃ a, a.name = "operator-delete" ∧ e'.RunsOn ed' (e'.session.pending ++ [.char 'w']) a := by
  intro v b e ed typed
  have hread : Binding.read 0 v = .ok b := by with_unfolding_all rfl
  have hrun : ((e.handleKeys ed typed).2.1.handleKey (e.handleKeys ed typed).2.2 (.char 'w')).1 =
      .executed "operator-delete" ∧ (e.handleKeys ed typed).2.1.session.pending = typed := by
    decide +kernel
  have hbs : ∀ b' ∈ [b], ∃ index v, Binding.read index v = .ok b' := by
    intro b' hb'
    rw [List.mem_singleton.1 hb']
    exact ⟨0, v, hread⟩
  have h := handleKeys_usesUp e ed [b] typed (.char 'w') rfl hbs rfl
  refine ⟨rfl, hread, rfl, ?_⟩
  generalize e.handleKeys ed typed = out at hrun h
  obtain ⟨outcomes, e', ed'⟩ := out
  exact ⟨hrun.1, hrun.2, h _ hrun.1⟩

end Engine

end ModalEdit
