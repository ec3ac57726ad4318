import ModalEdit.Proofs.Action.Waits
import ModalEdit.Proofs.Engine.Dispatch
import ModalEdit.Proofs.Engine.UsesUp
import ModalEdit.Proofs.Operator.Pieces

/-!
# Pending keys and changes of the mode

Keys that wait for more are kept while the host changes the selections, and such a change may switch
the mode. Only a few keys can be pending in a mode (`Mode.unfinished`), and a switch from outside
keeps them among those (`Engine.react_pendingBelongs`). By themselves they run nothing, except where
the switch has made them a call of their own: the key of an operator in Visual mode, and `i` or `a`
in Normal mode (`Engine.isStranded`).

`Engine.reactAll_pending` says so of every run of keys, changes of the selections and reloads.
-/

namespace ModalEdit

variable {keys : List Key} {m : Mode} {a : Action} {d : Document} {s : State}
  {settings : Settings}

/-! ### Keys that can be pending -/

namespace Mode

/-- The keys that can be pending in a mode: those behind which a command, a text object or a motion
waits, and the key of an operator alone or with the first key of its object. -/
def unfinished : Mode → List (List Key)
  | insert => []
  | visualLine => TextObject.leads.map ([·])
  | normal | visual =>
    [.char 'r'] :: TextObject.leads.map ([·]) ++
      [OperatorKind.delete, .yank, .change].flatMap fun kind =>
        [kind.key] :: TextObject.leads.map ([kind.key, ·])

/-- In the mode keys that can be pending call an action by themselves. -/
def takes : Mode → List Key → Bool
  | visual, keys => [OperatorKind.delete, .yank, .change].any fun kind => keys.head? = some kind.key
  | normal, keys => keys = [.char 'i'] || keys = [.char 'a']
  | insert, _ | visualLine, _ => false

theorem mem_unfinished_of_lead (hm : m ≠ .insert) {k : Key} (hk : k ∈ TextObject.leads) :
    [k] ∈ m.unfinished := by
  have hmap : [k] ∈ TextObject.leads.map ([·]) := List.mem_map_of_mem hk
  cases m with
  | insert => exact absurd rfl hm
  | visualLine => exact hmap
  | normal | visual => exact List.mem_append_left _ (List.mem_cons_of_mem _ hmap)

theorem mem_unfinished_operator {kind : OperatorKind} {rest : List Key}
    (h : rest = [] ∨ ∃ k ∈ TextObject.leads, rest = [k]) :
    kind.key :: rest ∈ normal.unfinished := by
  refine List.mem_append_right _ (List.mem_flatMap.2 ⟨kind, by cases kind <;> decide, ?_⟩)
  rcases h with rfl | ⟨k, hk, rfl⟩
  · exact List.mem_cons_self
  · exact List.mem_cons_of_mem _ (List.mem_map.2 ⟨k, hk, rfl⟩)

end Mode

theorem ModeSet.eq_normal_of_has (h : onlyNormal.has m = true) : m = .normal := by
  cases m with
  | normal => rfl
  | insert | visual | visualLine => cases h

namespace Keymap

/-- **The actions of a mode wait for few keys.** -/
theorem mem_unfinished_of_mayWait (ha : a ∈ builtin.forMode m) (hne : keys ≠ [])
    (h : a.MayWait keys) : keys ∈ m.unfinished := by
  -- One fixed key is not waited for behind other keys.
  have hchar (c : Char) : (Pattern.ofChar c).parse keys ≠ .partly := fun h =>
    hne (Pattern.eq_nil_of_parseLiteral_eq_partly h)
  have hesc : (Pattern.literal [.esc]).parse keys ≠ .partly := fun h =>
    hne (Pattern.eq_nil_of_parseLiteral_eq_partly h)
  have hobject {kind : OperatorKind} {o : TextObject} (ho : o ∈ TextObject.behind kind)
      (hm : m ≠ .insert) (h : o.pattern.parse keys = .partly) : keys ∈ m.unfinished := by
    rcases TextObject.keys_of_parse_eq_partly ho h with hnil | ⟨k, hk, rfl⟩
    · exact absurd hnil hne
    · exact Mode.mem_unfinished_of_lead hm hk
  have hoperator (kind : OperatorKind) (hm : (Action.operator kind).modes.has m = true)
      (h : (Action.operator kind).MayWait keys) : keys ∈ m.unfinished := by
    obtain rfl := ModeSet.eq_normal_of_has hm
    rcases h with hnil | ⟨rest, rfl, hrest⟩
    · exact absurd hnil hne
    · refine Mode.mem_unfinished_operator (hrest.elim .inl ?_)
      rintro ⟨o, ho, hpartly⟩
      exact TextObject.keys_of_parse_eq_partly ho hpartly
  suffices hall : ∀ a ∈ builtin, a.modes.has m = true → a.MayWait keys → keys ∈ m.unfinished from
    hall a (List.mem_filter.1 ha).1 (List.mem_filter.1 ha).2 h
  simp only [builtin, edits, visual, operators, onChar, onSelection, shorthand,
    List.forall_mem_append, List.forall_mem_map, List.forall_mem_cons]
  simp only [Action.MayWait, hchar, hesc, false_implies, implies_true, true_and, and_true,
    List.not_mem_nil]
  refine ⟨⟨⟨fun hm h => ?_, fun hm h => ?_⟩, hoperator .delete, hoperator .yank,
    hoperator .change⟩, fun motion hmotion hm h => ?_⟩
  · obtain rfl := ModeSet.eq_normal_of_has hm
    rcases Placeholder.parse_after_eq_partly (by decide) h with hnil | rfl
    · exact absurd hnil hne
    · exact List.mem_append_left _ List.mem_cons_self
  · obtain ⟨o, ho, hpartly⟩ := h
    have hmem : o ∈ TextObject.behind .delete :=
      List.mem_cons_of_mem _ (List.mem_append_left _ ho)
    exact hobject hmem (fun hinsert => by subst hinsert; cases hm) hpartly
  · exact hobject (TextObject.walked_mem_behind .delete hmotion)
      (fun hinsert => by subst hinsert; cases hm) h

/-- **Keys that can be pending run nothing**, unless the mode takes them. -/
theorem mayRun_unfinished : ∀ m ∈ Mode.all, ∀ keys ∈ m.unfinished, m.takes keys = false →
    ∀ a ∈ builtin.forMode m, a.mayRun keys = false := by
  decide +kernel

/-- Keys run something only if one of the actions can run on them. -/
theorem exists_mayRun_of_offer {k : Keymap} {waiting : Bool} {name : String} {s' : State}
    (h : k.offer settings keys waiting s = .ok (.executed name) s') :
    ∃ a ∈ k, a.mayRun keys = true := by
  obtain ⟨before, a, rest, rfl, -, hanswer, -⟩ := (k.offer_cases settings keys waiting s).of_ok h
  exact ⟨a, List.mem_append_right _ List.mem_cons_self, a.mayRun_of_answer hanswer⟩

/-- Actions wait for more keys only if one of them does. -/
theorem ends_offer_waiting (k : Keymap) (settings : Settings) (keys : List Key) (s : State) :
    (k.offer settings keys false).Ends s
      (fun o _ => o = .declined true → ∃ a ∈ k, a.MayWait keys) fun _ _ => True := by
  suffices h : ∀ waiting, (k.offer settings keys waiting).Ends s
      (fun o _ => o = .declined true → waiting = true ∨ ∃ a ∈ k, a.MayWait keys)
      fun _ _ => True from
    (h false).mono (fun o _ ho hw => (ho hw).resolve_left Bool.false_ne_true) fun _ _ h => h
  induction k generalizing s with
  | nil =>
    intro waiting ho
    cases ho
    exact .inl rfl
  | cons a k ih =>
    intro waiting
    rw [offer, Step.ends_bind]
    refine (a.ends_mayWait settings keys s).mono (fun r s' hr => ?_) fun _ _ h => h
    cases r with
    | executed =>
      intro ho
      cases ho
    | needsMore =>
      exact (Step.ends_true _ s').mono (fun _ _ _ _ => .inr ⟨a, List.mem_cons_self, hr rfl⟩)
        fun _ _ h => h
    | noMatch =>
      refine (ih s' waiting).mono (fun o _ ho hw => (ho hw).imp_right ?_) fun _ _ h => h
      rintro ⟨b, hb, hwaits⟩
      exact ⟨b, List.mem_cons_of_mem a hb, hwaits⟩

end Keymap

/-! ### Keys that the mode takes -/

/-- In Visual mode an operator runs on any selections that lie in the document. -/
theorem Step.ends_operate_visual (settings : Settings) (kind : OperatorKind)
    (hd : s.editor.document = some d) (hreadonly : s.editor.readonly = false)
    (hmode : s.mode = .visual) (hsels : ∀ sel ∈ s.selections, d.Holds sel) :
    (Step.operate settings d kind).Ends s (fun _ _ => True) fun _ _ => False := by
  have hpieces : ∀ r ∈ (s.selectedTargets d kind).filterMap (·.2), d.IsPiece r := by
    intro r hr
    obtain ⟨t, ht, hr⟩ := List.mem_filterMap.1 hr
    obtain ⟨sel, hsel, rfl⟩ := List.mem_map.1 ht
    cases hr
    have hheld := hsels sel hsel
    simp only [State.selectedRange, hmode, reduceCtorEq, ↓reduceIte]
    exact Document.isPiece_between hheld.1 hheld.2
  rw [Step.operate, Step.ends_bind, Step.ends_get]
  exact kind.ends_apply_of_pieces settings.placement true hd hreadonly hpieces

namespace Keymap

/-- **In Normal mode `i` and `a` enter Insert mode**. -/
theorem ends_offer_insert {c : Char} (hc : c = 'i' ∨ c = 'a')
    (hd : s.editor.document = some d) :
    ((builtin.forMode .normal).offer settings [.char c] false).Ends s
      (fun o _ => ∃ name, o = .executed name) fun _ _ => False := by
  obtain ⟨name, place, howns⟩ : ∃ name place,
      Owns (.char c) (onChar name .onlyNormal c (.insert place)) := by
    rcases hc with rfl | rfl
    · exact ⟨"insert", .before, List.mem_of_getElem? (i := 1) rfl⟩
    · exact ⟨"append", .after, List.mem_of_getElem? (i := 2) rfl⟩
  have hothers : ∀ b ∈ beforeMotions.forMode .normal,
      b = onChar name .onlyNormal c (.insert place) ∨ b.Declines settings [.char c] s :=
    fun b hb => (howns.eq_or_spares b hb).imp_right fun hspares => hspares settings [] s
  have hanswer : ((onChar name .onlyNormal c (.insert place)).answer settings [.char c]).Ends s
      (fun r _ => r = .executed ∧ True) fun _ _ => False :=
    Action.ends_command hd (Pattern.parse_ofChar c []) trivial
  rw [forMode_builtin]
  exact ends_offer _ hothers howns.mem false
    (hanswer.mono (fun _ _ hr => ⟨hr.1, _, rfl⟩) fun _ _ h => h)

end Keymap

/-! ### What happens to the engine -/

/-- What happens to the engine. -/
inductive Event where
  /-- A key is pressed. -/
  | key (k : Key)
  /-- The host changes the selections and reports it. -/
  | select (sels : List Selection) (source : SelectionSource)
  /-- The settings are loaded again. -/
  | reload (settings : Settings)

namespace Engine

variable {e : Engine} {ed : Editor}

/-- React to what happens, with the built-in actions. -/
def react (e : Engine) (ed : Editor) : Event → Engine × Editor
  | .key k => (e.handleKey ed k).2
  | .select sels source =>
    let ed := { ed with selections := sels }
    (e.onSelectionChange ed source, ed)
  | .reload settings => (e.reload .builtin settings, ed)

/-- React to what happens one after the other. -/
def reactAll : Engine → Editor → List Event → Engine × Editor
  | e, ed, [] => (e, ed)
  | e, ed, event :: events =>
    let (e, ed) := e.react ed event
    reactAll e ed events

/-- What is pending is what the actions of the mode wait for. -/
def PendingBelongs (e : Engine) : Prop :=
  e.session.pending ≠ [] → e.session.pending ∈ e.session.mode.unfinished

theorem pendingBelongs_of_nil (h : e.session.pending = []) : e.PendingBelongs :=
  fun hne => absurd h hne

theorem pendingBelongs_handleKey (hk : e.keymap = .builtin) (h : e.PendingBelongs) (key : Key) :
    (e.handleKey ed key).2.1.PendingBelongs := by
  unfold handleKey
  split
  · exact h
  · dsimp only
    have hwaits := (e.keymap.forMode e.session.mode).ends_offer_waiting e.settings
      (e.session.pending ++ [key]) ⟨ed, e.session⟩
    have hframe := (e.keymap.forMode e.session.mode).frame e.settings
      (e.session.pending ++ [key]) false ⟨ed, e.session⟩
    split
    · exact pendingBelongs_of_nil rfl
    · rename_i s' hoffer
      obtain rfl := (hframe.of_ok hoffer).resolve_left nofun
      obtain ⟨a, ha, hwait⟩ := hwaits.of_ok hoffer rfl
      rw [hk] at ha
      exact fun hne => Keymap.mem_unfinished_of_mayWait ha hne hwait
    · exact pendingBelongs_of_nil rfl
    · rename_i c s' hoffer
      -- A paste that fails may have adopted the clipboard, but not touched the keys.
      rcases hframe.of_error hoffer with rfl | ⟨-, rfl⟩
      · exact h
      · unfold State.syncRegisters
        split <;> exact h

/-- A switch of the mode from outside keeps what is pending among what the actions wait for. -/
theorem pendingBelongs_onSelectionChange (h : e.PendingBelongs) (ed : Editor)
    (source : SelectionSource) : (e.onSelectionChange ed source).PendingBelongs := by
  intro hne
  have hpending := h hne
  simp only [onSelectionChange, modeAfterSelection] at hne ⊢
  cases hmode : e.session.mode with
  | insert =>
    rw [hmode] at hpending
    exact hpending
  | normal | visual =>
    rw [hmode] at hpending
    dsimp only
    split <;> exact hpending
  | visualLine =>
    rw [hmode] at hpending
    dsimp only
    split
    · exact List.mem_append_left _ (List.mem_cons_of_mem _ hpending)
    · exact hpending

/-- **What happens keeps the pending keys among those that the actions of the mode wait for.** -/
theorem react_pendingBelongs (hk : e.keymap = .builtin) (h : e.PendingBelongs) (ed : Editor)
    (event : Event) :
    (e.react ed event).1.keymap = .builtin ∧ (e.react ed event).1.PendingBelongs := by
  cases event with
  | key k => exact ⟨(e.handleKey_keeps ed k).1.trans hk, pendingBelongs_handleKey hk h k⟩
  | select sels source => exact ⟨hk, pendingBelongs_onSelectionChange h _ source⟩
  | reload settings => exact ⟨rfl, pendingBelongs_of_nil rfl⟩

theorem reactAll_pendingBelongs (hk : e.keymap = .builtin) (h : e.PendingBelongs) (ed : Editor)
    (events : List Event) : (e.reactAll ed events).1.keymap = .builtin ∧
      (e.reactAll ed events).1.PendingBelongs := by
  induction events generalizing e ed with
  | nil => exact ⟨hk, h⟩
  | cons event events ih =>
    obtain ⟨hk', h'⟩ := react_pendingBelongs hk h ed event
    exact ih hk' h' _

/-- What is pending has become a call of its own: an operator in Visual mode, or `i` or `a` in
Normal mode. -/
def isStranded (e : Engine) : Bool := e.session.mode.takes e.session.pending

/-- Offer just the pending keys to the actions of the mode. -/
def offerPending (e : Engine) (ed : Editor) : EStateM.Result EditorError State Offer :=
  (e.keymap.forMode e.session.mode).offer e.settings e.session.pending false (e.state ed)

/-- Pending keys that the mode does not take run nothing. -/
theorem offerPending_ne_executed (hk : e.keymap = .builtin) (h : e.PendingBelongs)
    (hne : e.session.pending ≠ []) (hstranded : e.isStranded = false) (name : String)
    (s' : State) : e.offerPending ed ≠ .ok (.executed name) s' := by
  intro hoffer
  obtain ⟨a, ha, hrun⟩ := Keymap.exists_mayRun_of_offer hoffer
  rw [hk] at ha
  have hmode : e.session.mode ∈ Mode.all := by cases e.session.mode <;> decide
  rw [Keymap.mayRun_unfinished _ hmode _ (h hne) hstranded a ha] at hrun
  cases hrun

/-- Pending keys that the mode takes run an action. -/
theorem exists_offerPending (hk : e.keymap = .builtin) (hstranded : e.isStranded = true)
    (hd : ed.document = some d) (hreadonly : ed.readonly = false)
    (hsels : ∀ sel ∈ ed.selections, d.Holds sel) :
    ∃ name s', e.offerPending ed = .ok (.executed name) s' := by
  suffices hends : ((Keymap.builtin.forMode e.session.mode).offer e.settings e.session.pending
      false).Ends (e.state ed) (fun o _ => ∃ name, o = .executed name) fun _ _ => False by
    obtain ⟨o, s', hoffer, name, rfl⟩ := hends.exists_ok
    rw [offerPending, hk]
    exact ⟨name, s', hoffer⟩
  unfold isStranded Mode.takes at hstranded
  cases hmode : e.session.mode with
  | insert | visualLine =>
    rw [hmode] at hstranded
    cases hstranded
  | normal =>
    rw [hmode] at hstranded
    simp only [Bool.or_eq_true, decide_eq_true_eq] at hstranded
    obtain ⟨c, hc, hpending⟩ : ∃ c, (c = 'i' ∨ c = 'a') ∧ e.session.pending = [.char c] := by
      rcases hstranded with h | h
      · exact ⟨'i', .inl rfl, h⟩
      · exact ⟨'a', .inr rfl, h⟩
    rw [hpending]
    exact Keymap.ends_offer_insert hc hd
  | visual =>
    rw [hmode] at hstranded
    obtain ⟨kind, -, hhead⟩ := List.any_eq_true.1 hstranded
    obtain ⟨rest, hpending⟩ := List.head?_eq_some_iff.1 (of_decide_eq_true hhead)
    rw [hpending]
    exact (Keymap.ends_offer_visual kind rest hd
      (Step.ends_operate_visual (s := e.state ed) e.settings kind hd hreadonly hmode hsels)).mono
        (fun _ _ ho => ⟨_, ho.1⟩) fun _ _ h => h

/-- **When pending keys run something by themselves.** From an engine with nothing pending, after
any keys, changes of the selections and reloads: what is pending by itself runs nothing, whatever
the document and the selections have become, unless it is stranded in a mode in which it is a call
of its own. Then it does run an action, if the editor takes edits and the selections lie in the
document. -/
theorem reactAll_pending (e : Engine) (ed : Editor) (events : List Event)
    (hk : e.keymap = .builtin) (hfresh : e.session.pending = []) :
    match e.reactAll ed events with
    | (e', ed') => e'.session.pending ≠ [] →
      (e'.isStranded = false → ∀ name s', e'.offerPending ed' ≠ .ok (.executed name) s') ∧
        (e'.isStranded = true → ∀ d, ed'.document = some d → ed'.readonly = false →
          (∀ sel ∈ ed'.selections, d.Holds sel) →
            ∃ name s', e'.offerPending ed' = .ok (.executed name) s') := by
  intro hne
  obtain ⟨hk', h⟩ := reactAll_pendingBelongs hk (pendingBelongs_of_nil hfresh) ed events
  exact ⟨offerPending_ne_executed hk' h hne, fun hstranded _ => exists_offerPending hk' hstranded⟩

/-- In Visual mode the first key of a text object runs nothing by itself. A click behind it leaves
Visual mode, and then that key enters Insert mode. -/
theorem reactAll_pending_insert :
    let e : Engine := {}
    let d := Document.ofText "abc def".toList
    let typed := [Event.key (.char 'v'), .key (.char 'i')]
    let events := typed ++ [.select [.cursor ⟨0, 1⟩] .pointer]
    e.keymap = .builtin ∧ e.session.pending = [] ∧
      (match e.reactAll (.ofDocument d []) typed with
      | (e', ed') => e'.session.pending = [.char 'i'] ∧ e'.session.mode = .visual ∧
        e'.isStranded = false ∧ ∀ name s', e'.offerPending ed' ≠ .ok (.executed name) s') ∧
      match e.reactAll (.ofDocument d []) events with
      | (e', ed') => e'.session.pending = [.char 'i'] ∧ e'.session.mode = .normal ∧
        ∃ name s', e'.offerPending ed' = .ok (.executed name) s' := by
  intro e d typed events
  refine ⟨rfl, rfl, ?_, ?_⟩
  · -- The first key of a text object is pending where it belongs.
    have hrun : (e.reactAll (.ofDocument d []) typed).1.session.pending = [.char 'i'] ∧
        (e.reactAll (.ofDocument d []) typed).1.session.mode = .visual ∧
        (e.reactAll (.ofDocument d []) typed).1.isStranded = false := by
      decide +kernel
    have h := reactAll_pending e (.ofDocument d []) typed rfl rfl
    generalize e.reactAll (.ofDocument d []) typed = out at hrun h ⊢
    obtain ⟨e', ed'⟩ := out
    obtain ⟨hpending, hmode, hstranded⟩ := hrun
    exact ⟨hpending, hmode, hstranded, (h (hpending ▸ List.cons_ne_nil _ _)).1 hstranded⟩
  · -- Behind the click it is stranded in Normal mode.
    have hrun : (e.reactAll (.ofDocument d []) events).1.session.pending = [.char 'i'] ∧
        (e.reactAll (.ofDocument d []) events).1.session.mode = .normal ∧
        (e.reactAll (.ofDocument d []) events).2.document = some d ∧
        (e.reactAll (.ofDocument d []) events).2.readonly = false ∧
        (e.reactAll (.ofDocument d []) events).2.selections = [.cursor ⟨0, 1⟩] := by
      decide +kernel
    have h := reactAll_pending e (.ofDocument d []) events rfl rfl
    generalize e.reactAll (.ofDocument d []) events = out at hrun h ⊢
    obtain ⟨e', ed'⟩ := out
    obtain ⟨hpending, hmode, hd, hreadonly, hsels⟩ := hrun
    have hstranded : e'.isStranded = true := by
      unfold isStranded
      rw [hmode, hpending]
      rfl
    have hheld : ∀ sel ∈ ed'.selections, d.Holds sel := by
      rw [hsels]
      intro sel hsel
      rw [List.mem_singleton.1 hsel]
      exact ⟨by decide, by decide⟩
    exact ⟨hpending, hmode,
      (h (hpending ▸ List.cons_ne_nil _ _)).2 hstranded d hd hreadonly hheld⟩

/-- A selection made with the pointer behind the key of an operator: by itself the key deletes the
selection, and so it does with the next key, which is lost. -/
theorem not_reactAll_pending :
    let e : Engine := {}
    let ed := Editor.ofDocument (.ofText "abc def".toList) []
    match e.reactAll ed [.key (.char 'd'), .select [⟨⟨0, 0⟩, ⟨0, 2⟩⟩] .pointer] with
    | (e', ed') => e'.session.pending = [.char 'd'] ∧
      (∃ s', e'.offerPending ed' = .ok (.executed "visual-delete") s') ∧
      (e'.handleKey ed' (.char 'w')).1 = .executed "visual-delete" ∧
      (e'.handleKey ed' (.char 'w')).2.2.text = "c def".toList := by
  intro e ed
  have hrun : (match e.reactAll ed [.key (.char 'd'), .select [⟨⟨0, 0⟩, ⟨0, 2⟩⟩] .pointer] with
    | (e', ed') => decide (e'.session.pending = [.char 'd'] ∧
      (e'.handleKey ed' (.char 'w')).1 = .executed "visual-delete" ∧
      (e'.handleKey ed' (.char 'w')).2.2.text = "c def".toList) &&
      match e'.offerPending ed' with
      | .ok (.executed name) _ => decide (name = "visual-delete")
      | _ => false) = true := by decide +kernel
  generalize e.reactAll ed [.key (.char 'd'), .select [⟨⟨0, 0⟩, ⟨0, 2⟩⟩] .pointer] = out at hrun
  obtain ⟨e', ed'⟩ := out
  obtain ⟨hkey, hoffer⟩ := Bool.and_eq_true_iff.1 hrun
  obtain ⟨hpending, hnext, htext⟩ := of_decide_eq_true hkey
  split at hoffer
  · rename_i name s' hran
    obtain rfl := of_decide_eq_true hoffer
    exact ⟨hpending, ⟨s', hran⟩, hnext, htext⟩
  · cases hoffer

end Engine

end ModalEdit
