import ModalEdit.Proofs.Action.Acts
import ModalEdit.Proofs.Engine.Dispatch
import ModalEdit.Proofs.Engine.Run
import ModalEdit.Proofs.Operator.RoundTrip

/-!
# Deleting and pasting back, key by key

The key of the operator and the first of two keys of an object wait for more
(`OperatorKind.answer_key`, `OperatorKind.compose_waits`). The last key of the object runs the
operator on the ranges of that object, because its keys call no other
(`OperatorKind.ends_compose_of_found`). The key that pastes before the cursors then puts everything
back (`Engine.handleKeys_delete_paste`).
-/

namespace ModalEdit

variable {d : Document} {kind : OperatorKind} {o : TextObject} {keys : List Key} {s : State}

/-! ### What an object finds at the selections -/

namespace OperatorKind

variable {u : Purpose} {sels : List Selection}

theorem targetsOf_eq {found : Selection → ObjectRange} (hne : sels ≠ [])
    (h : ∀ sel ∈ sels, o.compute d u sel.active keys = .some (found sel) []) :
    targetsOf d u sels keys o = some (sels.map fun sel => (sel, some (found sel))) := by
  have hmap : (sels.map fun sel => (sel, (o.compute d u sel.active keys).result?)) =
      sels.map fun sel => (sel, some (found sel)) := by
    refine List.map_congr_left fun sel hsel => ?_
    rw [h sel hsel]
    rfl
  obtain ⟨sel, hsel⟩ := List.exists_mem_of_ne_nil sels hne
  have hany : (sels.map fun sel => (sel, some (found sel))).any (·.2.isSome) = true :=
    List.any_eq_true.2 ⟨_, List.mem_map_of_mem hsel, rfl⟩
  rw [targetsOf, hmap]
  exact if_pos hany

/-- The object that the keys call is the one that is taken. -/
theorem findSome?_targetsOf {found : Selection → ObjectRange} (ho : o ∈ TextObject.behind kind)
    (hne : sels ≠ []) (h : ∀ sel ∈ sels, o.compute d u sel.active keys = .some (found sel) []) :
    (TextObject.behind kind).findSome? (targetsOf d u sels keys) =
      some (sels.map fun sel => (sel, some (found sel))) := by
  obtain ⟨sel, hsel⟩ := List.exists_mem_of_ne_nil sels hne
  obtain ⟨captured, hparse⟩ := TextObject.parse_of_compute (h sel hsel)
  exact TextObject.findSome?_of_parse (List.Subset.refl _) ho hparse
    (fun o' hsome => isFull_of_targetsOf hsome) (targetsOf_eq hne h)

/-! ### What the operator answers -/

/-- The operator waits for the keys of an object. -/
theorem answer_key (kind : OperatorKind) (settings : Settings) (s : State) :
    (Action.operator kind).answer settings [kind.key] s = .ok .needsMore s := by
  simp only [Action.answer, Pattern.parseLiteral, ↓reduceIte]
  rfl

theorem answer_keys (settings : Settings) (hdoc : s.editor.document = some d) (k : Key)
    (keys : List Key) :
    (Action.operator kind).answer settings (kind.key :: k :: keys) s =
      kind.compose settings d (k :: keys) s := by
  simp only [Action.answer, Pattern.parseLiteral, ↓reduceIte, List.isEmpty_cons,
    Bool.false_eq_true, Step.withDocument]
  rw [Step.get_bind, hdoc]

/-- It also waits for the second key of an object if the first calls none. -/
theorem compose_waits (settings : Settings) (ho : o ∈ TextObject.behind kind)
    (hne : s.selections ≠ []) (hwaits : o.pattern.parse keys = .partly)
    (hnone : ∀ o ∈ TextObject.behind kind, (o.pattern.parse keys).isFull = false) :
    kind.compose settings d keys s = .ok .needsMore s := by
  have hfirst : (TextObject.behind kind).findSome?
      (targetsOf d ⟨some kind, s.session.lastFind⟩ s.selections keys) = none := by
    refine List.findSome?_eq_none_iff.2 fun o' ho' => ?_
    by_contra hsome
    have hfull := isFull_of_targetsOf (Option.isSome_iff_ne_none.2 hsome)
    rw [hnone o' ho'] at hfull
    cases hfull
  have hawaits : awaits d ⟨some kind, s.session.lastFind⟩ s.selections keys
      (TextObject.behind kind) = true := by
    obtain ⟨sel, hsel⟩ := List.exists_mem_of_ne_nil _ hne
    exact List.any_eq_true.2 ⟨o, ho, List.any_eq_true.2
      ⟨sel, hsel, TextObject.isPartly_compute hwaits _ _ _⟩⟩
  rw [TextObject.behind] at hfirst hawaits
  rw [compose, Step.get_bind]
  simp only [hfirst, hawaits, ↓reduceIte]
  rfl

/-- **The last key of an object runs the operator on what the object finds at the cursors.** -/
theorem ends_compose_of_found {settings : Settings} {found : Selection → ObjectRange}
    (ho : o ∈ TextObject.behind kind) (hne : s.selections ≠ [])
    (hfound : ∀ sel ∈ s.selections,
      o.compute d ⟨some kind, s.session.lastFind⟩ sel.active keys = .some (found sel) [])
    {Q : State → Prop}
    (happly : (kind.apply settings.placement d
      (s.selections.map fun sel => (sel, some (found sel).range)) false).Ends s
      (fun _ s' => Q (s'.remember (s.selections.findSome? fun sel => (found sel).find)))
      fun _ _ => False) :
    (kind.compose settings d keys).Ends s (fun r s' => r = .executed ∧ Q s') fun _ _ => False := by
  have hfirst := findSome?_targetsOf ho hne hfound
  have htargets : (s.selections.map fun sel => (sel, some (found sel))).map
      (fun t => (t.1, t.2.map (·.range))) =
        s.selections.map fun sel => (sel, some (found sel).range) := by
    rw [List.map_map]
    rfl
  have hfind : (s.selections.map fun sel => (sel, some (found sel))).findSome?
      (fun t => t.2.bind (·.find)) = s.selections.findSome? fun sel => (found sel).find := by
    rw [List.findSome?_map]
    rfl
  rw [TextObject.behind] at hfirst
  simp only [compose, Step.ends_bind, Step.ends_get, hfirst, htargets, hfind, Step.ends_modify,
    Step.ends_pure]
  exact happly.mono (fun _ _ h => ⟨trivial, h⟩) fun _ _ h => h

end OperatorKind

/-! ### What becomes of a key -/

namespace Engine

/-- Keys are offered to the built-in actions of Normal mode, and the document `d` is open. -/
structure InNormalMode (e : Engine) (ed : Editor) (d : Document) : Prop where
  /-- The actions are the built-in ones. -/
  keymap : e.keymap = .builtin
  /-- The mode is Normal mode. -/
  mode : e.session.mode = .normal
  /-- The document is open. -/
  document : ed.document = some d

variable {e : Engine} {ed : Editor} {key k : Key}

/-- A key is offered to the actions before the motions and then to the motions. -/
theorem InNormalMode.offer_eq (he : e.InNormalMode ed d)
    (htyped : e.session.pending ++ [key] = keys) :
    (e.keymap.forMode e.session.mode).offer e.settings (e.session.pending ++ [key]) false =
      (Keymap.beforeMotions.forMode .normal ++
        Keymap.forMode (Motion.defaults.map .motion) .normal).offer e.settings keys false := by
  rw [he.keymap, he.mode, htyped, Keymap.forMode_builtin]

/-- A key for which no action runs waits if one of them needs more keys. -/
theorem handleKey_of_waiting (hdoc : ed.document = some d)
    (hoffer : (e.keymap.forMode e.session.mode).offer e.settings (e.session.pending ++ [key]) false
      (e.state ed) = .ok (.declined true) (e.state ed)) :
    e.handleKey ed key =
      (.pending, e.withSession { e.session with pending := e.session.pending ++ [key] }, ed) := by
  have hsome : ed.document.isNone = false := by rw [hdoc]; rfl
  rw [state] at hoffer
  simp only [handleKey, hsome, Bool.false_eq_true, ↓reduceIte, hoffer]

/-- A key with which an action runs uses up what is pending. -/
theorem handleKey_of_executed (hdoc : ed.document = some d) {name : String} {Q : State → Prop}
    (hoffer : ((e.keymap.forMode e.session.mode).offer e.settings (e.session.pending ++ [key])
      false).Ends (e.state ed) (fun o s' => o = .executed name ∧ Q s') fun _ _ => False) :
    ∃ s', Q s' ∧ e.handleKey ed key =
      (.executed name, e.withSession { s'.session with pending := [] }, s'.editor) := by
  have hsome : ed.document.isNone = false := by rw [hdoc]; rfl
  obtain ⟨_, s', hoffer, rfl, hQ⟩ := hoffer.exists_ok
  refine ⟨s', hQ, ?_⟩
  rw [state] at hoffer
  simp only [handleKey, hsome, Bool.false_eq_true, ↓reduceIte, hoffer]

/-- The keys wait for more if the action to which the first key belongs does. -/
theorem handleKey_waits {a : Action} (howns : Keymap.Owns k a) (he : e.InNormalMode ed d)
    (htyped : e.session.pending ++ [key] = k :: keys)
    (hwaits : a.answer e.settings (k :: keys) (e.state ed) = .ok .needsMore (e.state ed)) :
    e.handleKey ed key =
      (.pending, e.withSession { e.session with pending := k :: keys }, ed) := by
  have hdeclined : ∀ b ∈ Keymap.beforeMotions.forMode .normal ++
      Keymap.forMode (Motion.defaults.map .motion) .normal,
      b.Declines e.settings (k :: keys) (e.state ed) := by
    intro b hb
    rcases List.mem_append.1 hb with hb | hb
    · rcases howns.eq_or_spares b hb with rfl | hspares
      · exact ⟨.needsMore, nofun, hwaits⟩
      · exact hspares _ _ _
    · obtain ⟨m, hm, rfl⟩ := List.mem_map.1 (List.mem_filter.1 hb).1
      exact Keymap.spares_motion hm howns.mem_normalKeys _ _ _
  rw [← htyped]
  refine handleKey_of_waiting he.document ?_
  rw [he.offer_eq htyped]
  exact Keymap.offer_waits hdeclined (.inr ⟨_, List.mem_append_left _ howns.mem, hwaits⟩)

/-- The action to which the first key belongs is run. -/
theorem handleKey_runs {a : Action} (howns : Keymap.Owns k a) (he : e.InNormalMode ed d)
    (htyped : e.session.pending ++ [key] = k :: keys) {Q : State → Prop}
    (hruns : (a.answer e.settings (k :: keys)).Ends (e.state ed)
      (fun r s' => r = .executed ∧ Q s') fun _ _ => False) :
    ∃ s', Q s' ∧ e.handleKey ed key =
      (.executed a.name, e.withSession { s'.session with pending := [] }, s'.editor) := by
  have hothers : ∀ b ∈ Keymap.beforeMotions.forMode .normal,
      b = a ∨ b.Declines e.settings (k :: keys) (e.state ed) := fun b hb =>
    (howns.eq_or_spares b hb).imp_right fun hspares => hspares _ _ _
  refine handleKey_of_executed he.document ?_
  rw [he.offer_eq htyped]
  refine Keymap.ends_offer _ hothers howns.mem false ?_
  exact hruns.mono (fun _ _ h => ⟨h.1, rfl, h.2⟩) fun _ _ h => h

/-- **The last key of a command runs it**, on the key captured. -/
theorem handleKey_command {name : String} {modes : ModeSet} {p : Pattern} {command : Command}
    (howns : Keymap.Owns k (.command name modes p command)) (he : e.InNormalMode ed d)
    (htyped : e.session.pending ++ [key] = k :: keys) {captured : Option (List Char × Key)}
    (hparse : p.parse (k :: keys) = .full captured []) {Q : State → Prop}
    (hruns : (command.run e.settings d (captured.map (·.2))).Ends (e.state ed) (fun _ s' => Q s')
      fun _ _ => False) :
    ∃ s', Q s' ∧ e.handleKey ed key =
      (.executed name, e.withSession { s'.session with pending := [] }, s'.editor) := by
  exact handleKey_runs howns he htyped (Action.ends_command he.document hparse hruns)

/-- The key of a command that has only one runs it. -/
theorem handleKey_onChar {name : String} {modes : ModeSet} {c : Char} {command : Command}
    (howns : Keymap.Owns (.char c) (Keymap.onChar name modes c command))
    (he : e.InNormalMode ed d) (hpending : e.session.pending = []) {Q : State → Prop}
    (hruns : (command.run e.settings d none).Ends (e.state ed) (fun _ s' => Q s')
      fun _ _ => False) :
    ∃ s', Q s' ∧ e.handleKey ed (.char c) =
      (.executed name, e.withSession { s'.session with pending := [] }, s'.editor) := by
  have htyped : e.session.pending ++ [.char c] = [.char c] := by
    rw [hpending, List.nil_append]
  exact handleKey_command howns he htyped (Pattern.parse_ofChar c []) hruns

/-- The key that pastes after or before the cursors. -/
def pasteKey (after : Bool) : Key := .char (if after then 'p' else 'P')

/-- What the key that pastes is reported as. -/
def pasteName (after : Bool) : String := if after then "paste-after" else "paste-before"

/-- The key that pastes does what the paste does. -/
theorem handleKey_pasteKey (he : e.InNormalMode ed d) (hpending : e.session.pending = [])
    {after : Bool} {Q : State → Prop}
    (hpaste : (Step.paste e.settings.placement d after).Ends (e.state ed) (fun _ s' => Q s')
      fun _ _ => False) :
    ∃ s', Q s' ∧ e.handleKey ed (pasteKey after) = (.executed (pasteName after),
      e.withSession { s'.session with pending := [] }, s'.editor) := by
  have howns : Keymap.Owns (pasteKey after) (Keymap.onChar (pasteName after) .onlyNormal
      (if after then 'p' else 'P') (.paste after)) := by
    cases after with
    | true => exact List.mem_of_getElem? (i := 11) rfl
    | false => exact List.mem_of_getElem? (i := 12) rfl
  exact handleKey_onChar howns he hpending hpaste

/-! ### Deleting and pasting -/

theorem handleKeys_append (e : Engine) (ed : Editor) (ks ls : List Key) :
    e.handleKeys ed (ks ++ ls) =
      let run := e.handleKeys ed ks
      let rest := run.2.1.handleKeys run.2.2 ls
      (run.1 ++ rest.1, rest.2) := by
  induction ks generalizing e ed with
  | nil => rfl
  | cons k ks ih => simp only [List.cons_append, handleKeys, ih]

variable {found : Selection → ObjectRange}

/-- The last key of an object runs the operator that waits for it. -/
theorem handleKey_composes {typed : List Key} (he : e.InNormalMode ed d)
    (hpending : e.session.pending = kind.key :: typed) {Q : State → Prop}
    (hcompose : (kind.compose e.settings d (typed ++ [key])).Ends (e.state ed)
      (fun r s' => r = .executed ∧ Q s') fun _ _ => False) :
    ∃ s', Q s' ∧ e.handleKey ed key = (.executed ("operator-" ++ kind.name),
      e.withSession { s'.session with pending := [] }, s'.editor) := by
  have htyped : e.session.pending ++ [key] = kind.key :: (typed ++ [key]) := by
    rw [hpending, List.cons_append]
  refine handleKey_runs (Keymap.owns_operator kind) he htyped ?_
  obtain ⟨k', keys', hkeys⟩ := List.exists_cons_of_ne_nil (show typed ++ [key] ≠ [] by simp)
  rw [hkeys] at hcompose ⊢
  obtain ⟨r, s', hran, hr⟩ := hcompose.exists_ok
  rw [Step.ends_of_ok ((OperatorKind.answer_keys e.settings he.document k' keys').trans hran)]
  exact hr

/-- **The operator and the keys of an object** run the operator on what the object finds at the
cursors. -/
theorem handleKeys_operator (he : e.InNormalMode ed d) (hpending : e.session.pending = [])
    (hne : ed.selections ≠ []) (ho : o ∈ TextObject.behind kind)
    (hfound : ∀ sel ∈ ed.selections,
      o.compute d ⟨some kind, e.session.lastFind⟩ sel.active keys = .some (found sel) [])
    {Q : State → Prop}
    (happly : ∀ pending, (kind.apply e.settings.placement d
      (ed.selections.map fun sel => (sel, some (found sel).range)) false).Ends
      ⟨ed, { e.session with pending }⟩
      (fun _ s' => Q (s'.remember (ed.selections.findSome? fun sel => (found sel).find)))
      fun _ _ => False) :
    ∃ s', Q s' ∧ e.handleKeys ed (kind.key :: keys) =
      (List.replicate keys.length .pending ++ [.executed ("operator-" ++ kind.name)],
        e.withSession { s'.session with pending := [] }, s'.editor) := by
  have hcompose (pending : List Key) : (kind.compose e.settings d keys).Ends
      ⟨ed, { e.session with pending }⟩ (fun r s' => r = .executed ∧ Q s') fun _ _ => False :=
    OperatorKind.ends_compose_of_found (s := ⟨ed, { e.session with pending }⟩) ho hne hfound
      (happly pending)
  let waiting (typed : List Key) : Engine :=
    e.withSession { e.session with pending := kind.key :: typed }
  have hwaiting : ∀ typed, (waiting typed).InNormalMode ed d := fun _ =>
    ⟨he.keymap, he.mode, he.document⟩
  have hfirst : e.handleKey ed kind.key = (.pending, waiting [], ed) := by
    refine handleKey_waits (Keymap.owns_operator kind) he ?_ (OperatorKind.answer_key _ _ _)
    rw [hpending, List.nil_append]
  obtain ⟨sel, hsel⟩ := List.exists_mem_of_ne_nil _ hne
  obtain ⟨captured, hparse⟩ := TextObject.parse_of_compute (hfound sel hsel)
  rcases TextObject.keys_of_parse ho hparse with ⟨k, rfl⟩ | ⟨k, k', rfl, hpartly, hnone⟩
  · obtain ⟨s', hQ, hlast⟩ := handleKey_composes (hwaiting []) rfl (hcompose [kind.key])
    refine ⟨s', hQ, ?_⟩
    simp only [handleKeys, hfirst, hlast]
    rfl
  · -- After the first of the two keys the operator waits for the second.
    have hsecond : (waiting []).handleKey ed k = (.pending, waiting [k], ed) := by
      refine handleKey_waits (Keymap.owns_operator kind) (hwaiting []) rfl ?_
      rw [OperatorKind.answer_keys _ he.document]
      exact OperatorKind.compose_waits _ ho hne hpartly hnone
    obtain ⟨s', hQ, hlast⟩ := handleKey_composes (hwaiting [k]) rfl (hcompose [kind.key, k])
    refine ⟨s', hQ, ?_⟩
    simp only [handleKeys, hfirst, hsecond, hlast]
    rfl

/-- **The operator that deletes and the keys of an object** delete what the object finds at the
cursors. -/
theorem handleKeys_delete (he : e.InNormalMode ed d) (hplacement : e.settings.placement = .gap)
    (hpending : e.session.pending = []) (hreadonly : ed.readonly = false) (hne : ed.selections ≠ [])
    (ho : o ∈ TextObject.behind .delete)
    (hfound : ∀ sel ∈ ed.selections,
      o.compute d ⟨some .delete, e.session.lastFind⟩ sel.active keys = .some (found sel) [])
    (h : d.Separate (ed.selections.map fun sel => (found sel).range)) :
    ∃ e' ed', e.handleKeys ed (OperatorKind.delete.key :: keys) =
        (List.replicate keys.length .pending ++ [.executed "operator-delete"], e', ed') ∧
      e'.keymap = .builtin ∧ e'.session.pending = [] ∧
      d.Deleted (ed.selections.map fun sel => (found sel).range) (e'.state ed') := by
  have hranges : ed.selections.map (fun sel => (found sel).range) ≠ [] := by simpa using hne
  have htaken : (ed.selections.map fun sel => ((sel, some (found sel).range) : Target)).map (·.2) =
      (ed.selections.map fun sel => (found sel).range).map some := by
    rw [List.map_map, List.map_map]
    rfl
  obtain ⟨s', hdeleted, hrun⟩ := handleKeys_operator he hpending hne ho hfound
    (Q := d.Deleted (ed.selections.map fun sel => (found sel).range)) fun pending => by
      obtain ⟨s', happly, hdeleted⟩ := h.apply_delete hranges htaken
        (s := ⟨ed, { e.session with pending }⟩) he.document hreadonly
      rw [hplacement, Step.ends_of_ok happly]
      exact hdeleted.congr rfl rfl rfl
  exact ⟨_, _, hrun, he.keymap, rfl, hdeleted.congr rfl rfl rfl⟩

/-- The key that pastes before the cursors puts the pieces back. -/
theorem handleKey_pastes {rs : List Range} (h : d.Separate rs) (hne : rs ≠ [])
    (hkeymap : e.keymap = .builtin) (hpending : e.session.pending = [])
    (hdeleted : d.Deleted rs (e.state ed)) :
    (e.handleKey ed (.char 'P')).1 = .executed "paste-before" ∧
      (e.handleKey ed (.char 'P')).2.2.document = some d := by
  have he : e.InNormalMode ed (d.without rs) := ⟨hkeymap, hdeleted.mode, hdeleted.document⟩
  obtain ⟨s', hrestored, hkey⟩ :=
    handleKey_pasteKey he hpending (h.ends_paste hne hdeleted e.settings.placement)
  have hreported : e.handleKey ed (.char 'P') = _ := hkey
  rw [hreported]
  exact ⟨rfl, hrestored⟩

end Engine

/-- Pieces of characters that a text object finds at the cursors are separate if they are apart. -/
theorem Document.separate_of_compute {sels : List Selection} {u : Purpose}
    {found : Selection → ObjectRange}
    (hfound : ∀ sel ∈ sels, o.compute d u sel.active keys = .some (found sel) [])
    (hchars : ∀ sel ∈ sels, (found sel).range.lines = none ∧ d.slice (found sel).range ≠ [])
    (hgap : sels.Pairwise fun sel sel' =>
      d.offsetOf (found sel).range.stop < d.offsetOf (found sel').range.start ∨
        d.offsetOf (found sel').range.stop < d.offsetOf (found sel).range.start) :
    d.Separate (sels.map fun sel => (found sel).range) where
  piece := List.forall_mem_map.2 fun sel hsel =>
    ⟨(TextObject.isSpan_of_compute (hfound sel hsel)).fits, (hchars sel hsel).1⟩
  holds := List.forall_mem_map.2 fun sel hsel => (hchars sel hsel).2
  gap := List.pairwise_map.2 hgap

namespace Engine

/-- **Deleting and pasting back restores the text**: for any document, any cursors in any order and
any text object that finds a piece of characters at each of them, with at least one character
between any two pieces. The operator, the keys of the object and the key that pastes before the
cursors are typed in Normal mode; the cursors rest between characters. -/
theorem handleKeys_delete_paste (e : Engine) (ed : Editor) (d : Document) (o : TextObject)
    (keys : List Key) (found : Selection → ObjectRange) (hkeymap : e.keymap = .builtin)
    (hplacement : e.settings.placement = .gap) (hmode : e.session.mode = .normal)
    (hpending : e.session.pending = []) (hdoc : ed.document = some d)
    (hreadonly : ed.readonly = false) (hne : ed.selections ≠ [])
    (ho : o ∈ TextObject.behind .delete)
    (hfound : ∀ sel ∈ ed.selections,
      o.compute d ⟨some .delete, e.session.lastFind⟩ sel.active keys = .some (found sel) [])
    (hchars : ∀ sel ∈ ed.selections,
      (found sel).range.lines = none ∧ d.slice (found sel).range ≠ [])
    (hgap : ed.selections.Pairwise fun sel sel' =>
      d.offsetOf (found sel).range.stop < d.offsetOf (found sel').range.start ∨
        d.offsetOf (found sel').range.stop < d.offsetOf (found sel).range.start) :
    let run := e.handleKeys ed (OperatorKind.delete.key :: keys ++ [.char 'P'])
    run.1 = List.replicate keys.length .pending ++
      [.executed "operator-delete", .executed "paste-before"] ∧ run.2.2.document = some d := by
  have h := Document.separate_of_compute hfound hchars hgap
  have hranges : ed.selections.map (fun sel => (found sel).range) ≠ [] := by simpa using hne
  obtain ⟨e', ed', hdelete, hkeymap', hpending', hdeleted⟩ :=
    handleKeys_delete ⟨hkeymap, hmode, hdoc⟩ hplacement hpending hreadonly hne ho hfound h
  obtain ⟨hpasted, hrestored⟩ := handleKey_pastes h hranges hkeymap' hpending' hdeleted
  rw [handleKeys_append, hdelete]
  simp only [handleKeys, hpasted]
  exact ⟨List.append_assoc _ _ _, hrestored⟩

/-- The cursor on the second word comes first: each word comes back where it has been. -/
theorem handleKeys_delete_paste_words :
    let d := Document.ofText "abc def".toList
    let ed := Editor.ofDocument d [⟨0, 4⟩, ⟨0, 0⟩]
    let e : Engine := { settings := { placement := .gap } }
    let o := TextObject.structural "word" (.literal [.char 'i', .char 'w']) (.word .small) false
    let found (sel : Selection) : ObjectRange :=
      if sel.active = ⟨0, 4⟩ then { range := ⟨⟨0, 4⟩, ⟨0, 7⟩, none⟩ }
      else { range := ⟨⟨0, 0⟩, ⟨0, 3⟩, none⟩ }
    o ∈ TextObject.behind .delete ∧
    (∀ sel ∈ ed.selections, o.compute d ⟨some .delete, none⟩ sel.active
      [.char 'i', .char 'w'] = .some (found sel) []) ∧
    (e.handleKeys ed [.char 'd', .char 'i', .char 'w', .char 'P']).2.2.document = some d := by
  intro d ed e o found
  have ho : o ∈ TextObject.behind .delete := List.mem_of_getElem? (i := 1) rfl
  have hfound : ∀ sel ∈ ed.selections, o.compute d ⟨some .delete, none⟩ sel.active
      [.char 'i', .char 'w'] = .some (found sel) [] := by decide +kernel
  have hchars : ∀ sel ∈ ed.selections,
      (found sel).range.lines = none ∧ d.slice (found sel).range ≠ [] := by decide +kernel
  have hgap : ed.selections.Pairwise fun sel sel' =>
      d.offsetOf (found sel).range.stop < d.offsetOf (found sel').range.start ∨
        d.offsetOf (found sel').range.stop < d.offsetOf (found sel).range.start := by
    decide +kernel
  have hkeys : [Key.char 'd', .char 'i', .char 'w', .char 'P'] =
      OperatorKind.delete.key :: [.char 'i', .char 'w'] ++ [.char 'P'] := rfl
  obtain ⟨-, hrestored⟩ := handleKeys_delete_paste e ed d o [.char 'i', .char 'w'] found rfl rfl rfl
    rfl rfl rfl (by decide) ho hfound hchars hgap
  rw [hkeys]
  exact ⟨ho, hfound, hrestored⟩

end Engine

end ModalEdit
