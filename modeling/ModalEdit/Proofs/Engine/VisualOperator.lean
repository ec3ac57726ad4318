import ModalEdit.Proofs.Action.SelectObject
import ModalEdit.Proofs.Engine.RoundTrip

/-!
# Selecting first and operating afterwards

A text object can be named behind an operator, or it can be selected in Visual mode before the key
of the operator. The two ways share little before the operator is applied: one turns the cursors
into selections of a character, takes the head back from each, looks for the object there and reads
the ranges back from the selections; the other looks for the object at the cursors. Where a
structure finds pieces of characters at cursors that stand on a character, both lead to the same
engine and editor (`Engine.handleKeys_visual_operator`).
-/

namespace ModalEdit

variable {d : Document} {kind : OperatorKind} {o : TextObject} {keys : List Key} {k k' : Key}
  {s : State} {found : Selection → ObjectRange}

/-! ### The keys of a structure in Visual mode -/

namespace Keymap

theorem spares_structureLead (hk : k ∈ TextObject.structureLeads) :
    ∀ b ∈ visualFront, b.Spares k := by
  have hnot : ∀ k ∈ TextObject.structureLeads, k ∉ visualKeys := by decide
  exact spares_of_not_mem beginsWith_visualKeys (hnot k hk)

/-- The first key of a structure waits for the second. -/
theorem offer_structureLead (settings : Settings) (hdoc : s.editor.document = some d)
    (hne : s.selections ≠ [])
    (ho : o ∈ TextObject.structures) (hk : k ∈ TextObject.structureLeads)
    (hkeys : o.fixedKeys? = some [k, k']) :
    (builtin.forMode .visual).offer settings [k] false s = .ok (.declined true) s := by
  have hwaits : o.pattern.parse [k] = .partly := by
    rw [TextObject.pattern_of_fixedKeys? hkeys]
    simp [Pattern.parse, Pattern.parseLiteral]
  have hnone : ∀ o' ∈ TextObject.structures, (o'.pattern.parse [k]).isFull = false := by
    intro o' ho'
    obtain ⟨l, -, l', hls⟩ := TextObject.fixedKeys?_of_mem_structures ho'
    rw [TextObject.pattern_of_fixedKeys? hls]
    by_cases hl : l = k <;> simp [Pattern.parse, Pattern.parseLiteral, hl, Match.isFull]
  have hobject : Action.selectObject.answer settings [k] s = .ok .needsMore s := by
    have hopen : Action.selectObject.answer settings [k] s = Step.selectObject d [k] s := by
      rw [Action.answer, Step.withDocument, Step.get_bind, hdoc]
    rw [hopen, Step.selectObject_waits ho hne hwaits hnone]
  have hdeclined : ∀ b ∈ builtin.forMode .visual, b.Declines settings [k] s := by
    rw [forMode_visual, List.forall_mem_append, List.forall_mem_cons]
    refine ⟨fun b hb => spares_structureLead hk b hb _ _ _, ⟨.needsMore, by decide, hobject⟩, ?_⟩
    intro b hb
    obtain ⟨m, hm, rfl⟩ := List.mem_map.1 (List.mem_filter.1 hb).1
    refine ⟨.noMatch, by decide, ?_⟩
    rw [Action.answer, TextObject.parse_structureLead hm hk]
    rfl
  have hmem : Action.selectObject ∈ builtin.forMode .visual := by
    rw [forMode_visual]
    exact List.mem_append_right _ List.mem_cons_self
  exact offer_waits hdeclined (.inr ⟨_, hmem, hobject⟩)

/-- With the second key the structure is selected. -/
theorem ends_offer_selectObject {settings : Settings} (hdoc : s.editor.document = some d)
    (hk : k ∈ TextObject.structureLeads) {s' : State}
    (hselect : Step.selectObject d (k :: keys) s = .ok .executed s') :
    ((builtin.forMode .visual).offer settings (k :: keys) false).Ends s
      (fun r t => r = .executed "visual-text-object" ∧ t = s') fun _ _ => False := by
  have hothers : ∀ b ∈ visualFront ++ [.selectObject], b = .selectObject ∨
      b.Declines settings (k :: keys) s := by
    intro b hb
    rcases List.mem_append.1 hb with hb | hb
    · exact .inr (spares_structureLead hk b hb _ _ _)
    · exact .inl (List.mem_singleton.1 hb)
  have hanswer : (Action.selectObject.answer settings (k :: keys)).Ends s
      (fun r t => r = .executed ∧ t = s') fun _ _ => False := by
    refine (Step.ends_withDocument_of_some hdoc).2 ?_
    rw [Step.ends_of_ok hselect]
    exact ⟨rfl, rfl⟩
  rw [forMode_visual, List.append_cons]
  exact ends_offer _ hothers (List.mem_append_right _ List.mem_cons_self) false
    (hanswer.mono (fun _ _ hr => ⟨hr.1, rfl, hr.2⟩) fun _ _ h => h)

end Keymap

/-! ### Key by key -/

/-- The editor with other selections and another position brought into view. -/
def Editor.showing (ed : Editor) (sels : List Selection) (shown : Option Position) : Editor :=
  { ed with selections := sels, revealed := shown }

namespace Engine

/-- The engine in Visual mode with keys pending. -/
def inVisualMode (e : Engine) (pending : List Key) : Engine :=
  e.withSession { e.session with mode := .visual, pending }

variable {e : Engine} {ed : Editor}

/-- The key that begins Visual mode selects the character under each cursor. -/
theorem handleKey_toggleVisual (he : e.InNormalMode ed d) (hpending : e.session.pending = []) :
    ∃ shown, e.handleKey ed (.char 'v') = (.executed "visual-toggle", e.inVisualMode [],
      ed.showing (d.charSelections ed.selections) shown) := by
  have howns : Keymap.Owns (.char 'v')
      (Keymap.onChar "visual-toggle" .normalAndVisual 'v' .toggleVisual) :=
    List.mem_of_getElem? (i := 9) rfl
  have hmode : (e.state ed).mode = .normal := he.mode
  let begun : State := ((e.state ed).select (d.charSelections ed.selections)).setMode .visual
  have htoggle : (Command.toggleVisual.run e.settings d none).Ends (e.state ed)
      (fun _ s' => s' = begun) fun _ _ => False := by
    rw [Command.run, Step.ends_modify, State.toggleVisual, hmode]
    rfl
  obtain ⟨s', rfl, hkey⟩ := handleKey_onChar howns he hpending htoggle
  exact ⟨_, hkey⟩

variable (sels : List Selection) (shown : Option Position)

/-- A key with which an action of Visual mode runs. -/
theorem handleKey_inVisualMode (hkeymap : e.keymap = .builtin) (hdoc : ed.document = some d)
    (pending : List Key) (key : Key) {name : String} {s' : State}
    (hoffer : ((Keymap.builtin.forMode .visual).offer e.settings (pending ++ [key]) false).Ends
      ((e.state ed).withView sels shown .visual pending) (fun r t => r = .executed name ∧ t = s')
      fun _ _ => False) :
    (e.inVisualMode pending).handleKey (ed.showing sels shown) key =
      (.executed name, e.withSession { s'.session with pending := [] }, s'.editor) := by
  have hopen : (ed.showing sels shown).document = some d := hdoc
  rw [← hkeymap] at hoffer
  obtain ⟨_, rfl, hkey⟩ := handleKey_of_executed (e := e.inVisualMode pending) (Q := (· = s'))
    hopen hoffer
  exact hkey

/-- The first key of a structure waits. -/
theorem handleKey_structureLead (hkeymap : e.keymap = .builtin) (hdoc : ed.document = some d)
    (hne : sels ≠ []) (ho : o ∈ TextObject.structures) (hk : k ∈ TextObject.structureLeads)
    (hkeys : o.fixedKeys? = some [k, k']) :
    (e.inVisualMode []).handleKey (ed.showing sels shown) k =
      (.pending, e.inVisualMode [k], ed.showing sels shown) := by
  have hopen : (ed.showing sels shown).document = some d := hdoc
  have hoffer := Keymap.offer_structureLead e.settings
    (s := (e.state ed).withView sels shown .visual []) hdoc hne ho hk hkeys
  rw [← hkeymap] at hoffer
  exact handleKey_of_waiting (e := e.inVisualMode []) hopen hoffer

/-- With the second key the selections are what the structure finds at their heads. -/
theorem handleKey_selectObject (hkeymap : e.keymap = .builtin) (hdoc : ed.document = some d)
    (hk : k ∈ TextObject.structureLeads) {objects : List Selection}
    (hselect : Step.selectObject d [k, k'] ((e.state ed).withView sels shown .visual [k]) =
      .ok .executed (((e.state ed).withView sels shown .visual [k]).select objects)) :
    ∃ shown', (e.inVisualMode [k]).handleKey (ed.showing sels shown) k' =
      (.executed "visual-text-object", e.inVisualMode [], ed.showing objects shown') := by
  have hkey := handleKey_inVisualMode sels shown hkeymap hdoc [k] k'
    (Keymap.ends_offer_selectObject hdoc hk hselect)
  exact ⟨_, hkey⟩

/-- The key of an operator runs it on the selections. -/
theorem handleKey_operate (kind : OperatorKind) (hkeymap : e.keymap = .builtin)
    (hdoc : ed.document = some d) {t : State} (hoperate : Step.operate e.settings d kind
      ((e.state ed).withView sels shown .visual []) = .ok () t) :
    (e.inVisualMode []).handleKey (ed.showing sels shown) kind.key =
      (.executed ("visual-" ++ kind.name), e.withSession { t.session with pending := [] },
        t.editor) := by
  refine handleKey_inVisualMode sels shown hkeymap hdoc [] kind.key
    (Keymap.ends_offer_visual kind [] hdoc ?_)
  rw [Step.ends_of_ok hoperate]

/-! ### Both ways -/

/-- **In Visual mode the keys of a structure and the operator** run it on what the structure finds
at the cursors. -/
theorem handleKeys_selectObject_operate (he : e.InNormalMode ed d)
    (hpending : e.session.pending = []) (hne : ed.selections ≠ [])
    (hchar : ∀ sel ∈ ed.selections, sel.active.col < d.lineLen sel.active.line)
    (ho : o ∈ TextObject.structures)
    (hfound : ∀ sel ∈ ed.selections,
      o.compute d ⟨some kind, e.session.lastFind⟩ sel.active keys = .some (found sel) [])
    (hlines : ∀ sel ∈ ed.selections, (found sel).range.lines = none) {t : State}
    (happly : kind.apply e.settings.placement d
      (ed.selections.map fun sel => (sel, some (found sel).range)) false (e.state ed) = .ok () t) :
    e.handleKeys ed (.char 'v' :: keys ++ [kind.key]) =
      ([.executed "visual-toggle", .pending, .executed "visual-text-object",
        .executed ("visual-" ++ kind.name)], e.withSession { t.session with pending := [] },
        t.editor) := by
  have hdoc := he.document
  obtain ⟨sel, hsel⟩ := List.exists_mem_of_ne_nil _ hne
  obtain ⟨captured, hparse⟩ := TextObject.parse_of_compute (hfound sel hsel)
  obtain ⟨k, hk, k', rfl, hkeys⟩ := TextObject.keys_of_mem_structures ho hparse
  obtain ⟨shown, hfirst⟩ := handleKey_toggleVisual he hpending
  have hchars : d.charSelections ed.selections ≠ [] := by simpa [Document.charSelections] using hne
  have hsecond := handleKey_structureLead _ shown he.keymap hdoc hchars ho hk hkeys
  let begun : State := (e.state ed).withView (d.charSelections ed.selections) shown .visual [k]
  let objects : List Selection :=
    ed.selections.map fun sel => ⟨(found sel).range.start, (found sel).range.stop⟩
  have hselect : Step.selectObject d [k, k'] begun = .ok .executed (begun.select objects) :=
    Step.selectObject_of_cursors ho hne rfl rfl hchar hfound hlines
  obtain ⟨shown', hthird⟩ := handleKey_selectObject _ shown he.keymap hdoc hk hselect
  -- The selections are the pieces themselves, so the operator does what it would at the cursors.
  have hpieces : ∀ sel ∈ ed.selections, d.IsPiece (found sel).range := fun sel hsel =>
    ⟨(TextObject.isSpan_of_compute (hfound sel hsel)).fits, hlines sel hsel⟩
  have hoperate : Step.operate e.settings d kind
      ((e.state ed).withView objects shown' .visual []) = .ok () (t.withPending []) := by
    rw [OperatorKind.operate_of_pieces e.settings rfl rfl hpieces id]
    exact OperatorKind.apply_withView (by simpa using hne) hdoc happly _ shown' .visual []
  have hlast := handleKey_operate objects shown' kind he.keymap hdoc hoperate
  simp only [List.cons_append, List.nil_append, handleKeys, hfirst, hsecond, hthird, hlast]
  rfl

/-- **Behind an operator the keys of an object** that is no search run it on what the object finds
at the cursors. -/
theorem handleKeys_operator_apply (he : e.InNormalMode ed d)
    (hpending : e.session.pending = []) (hne : ed.selections ≠ [])
    (ho : o ∈ TextObject.behind kind)
    (hfound : ∀ sel ∈ ed.selections,
      o.compute d ⟨some kind, e.session.lastFind⟩ sel.active keys = .some (found sel) [])
    (hnoFind : ∀ sel ∈ ed.selections, (found sel).find = none)
    {t : State} (happly : kind.apply e.settings.placement d
      (ed.selections.map fun sel => (sel, some (found sel).range)) false (e.state ed) = .ok () t) :
    e.handleKeys ed (kind.key :: keys) =
      (List.replicate keys.length .pending ++ [.executed ("operator-" ++ kind.name)],
        e.withSession { t.session with pending := [] }, t.editor) := by
  -- When the operator runs, its own key and those of the object are still pending.
  have hends (pending : List Key) : (kind.apply e.settings.placement d
      (ed.selections.map fun sel => (sel, some (found sel).range)) false).Ends
      ⟨ed, { e.session with pending }⟩
      (fun _ s' => ∃ pending, s'.remember none = t.withPending pending) fun _ _ => False := by
    have hview := OperatorKind.apply_withView (by simpa using hne) he.document happly
      ed.selections ed.revealed e.session.mode pending
    exact (Step.ends_of_ok hview).2 ⟨pending, rfl⟩
  rw [← List.findSome?_eq_none_iff.2 hnoFind] at hends
  obtain ⟨s', ⟨pending, rfl⟩, hrun⟩ := handleKeys_operator he hpending hne ho hfound
    (Q := fun s' => ∃ pending, s' = t.withPending pending) hends
  exact hrun

/-- **Behind an operator the keys of a structure** run it on what the structure finds at the
cursors. -/
theorem handleKeys_operator_structure (he : e.InNormalMode ed d)
    (hpending : e.session.pending = []) (hne : ed.selections ≠ [])
    (ho : o ∈ TextObject.structures)
    (hfound : ∀ sel ∈ ed.selections,
      o.compute d ⟨some kind, e.session.lastFind⟩ sel.active keys = .some (found sel) [])
    {t : State} (happly : kind.apply e.settings.placement d
      (ed.selections.map fun sel => (sel, some (found sel).range)) false (e.state ed) = .ok () t) :
    e.handleKeys ed (kind.key :: keys) =
      ([.pending, .pending, .executed ("operator-" ++ kind.name)],
        e.withSession { t.session with pending := [] }, t.editor) := by
  have hrun := handleKeys_operator_apply he hpending hne
    (TextObject.structures_subset_behind kind ho) hfound
    (fun sel hsel => TextObject.find_of_mem_structures ho (hfound sel hsel)) happly
  obtain ⟨sel, hsel⟩ := List.exists_mem_of_ne_nil _ hne
  obtain ⟨captured, hparse⟩ := TextObject.parse_of_compute (hfound sel hsel)
  obtain ⟨k, -, k', rfl, -⟩ := TextObject.keys_of_mem_structures ho hparse
  exact hrun

/-- **Selecting a structure and then running an operator on it is running the operator on the
structure**: for every text, placement and operator, any cursors that stand on a character, and any
structure that finds a piece of characters at each of them. Both ways lead to the same engine and
editor. There is a cursor, as there always is in an open document. -/
theorem handleKeys_visual_operator (e : Engine) (ed : Editor) (d : Document) (kind : OperatorKind)
    (o : TextObject) (keys : List Key) (found : Selection → ObjectRange)
    (hkeymap : e.keymap = .builtin) (hmode : e.session.mode = .normal)
    (hpending : e.session.pending = []) (hdoc : ed.document = some d)
    (hreadonly : ed.readonly = false) (hne : ed.selections ≠ [])
    (hchar : ∀ sel ∈ ed.selections, sel.active.col < d.lineLen sel.active.line)
    (ho : o ∈ TextObject.structures)
    (hfound : ∀ sel ∈ ed.selections,
      o.compute d ⟨some kind, e.session.lastFind⟩ sel.active keys = .some (found sel) [])
    (hlines : ∀ sel ∈ ed.selections, (found sel).range.lines = none) :
    let selected := e.handleKeys ed (.char 'v' :: keys ++ [kind.key])
    let named := e.handleKeys ed (kind.key :: keys)
    selected.1 = [.executed "visual-toggle", .pending, .executed "visual-text-object",
        .executed ("visual-" ++ kind.name)] ∧
      named.1 = [.pending, .pending, .executed ("operator-" ++ kind.name)] ∧
      selected.2 = named.2 := by
  intro selected named
  have he : e.InNormalMode ed d := ⟨hkeymap, hmode, hdoc⟩
  have hpieces : ∀ r ∈ (ed.selections.map fun sel =>
      ((sel, some (found sel).range) : Target)).filterMap (·.2), d.IsPiece r := by
    intro r hr
    obtain ⟨t, ht, hr⟩ := List.mem_filterMap.1 hr
    obtain ⟨sel, hsel, rfl⟩ := List.mem_map.1 ht
    cases hr
    exact ⟨(TextObject.isSpan_of_compute (hfound sel hsel)).fits, hlines sel hsel⟩
  obtain ⟨_, t, happly, -⟩ := (kind.ends_apply_of_pieces (s := e.state ed) e.settings.placement
    false hdoc hreadonly hpieces).exists_ok
  have hselected : selected = _ := handleKeys_selectObject_operate he hpending hne hchar ho hfound
    hlines happly
  have hnamed : named = _ := handleKeys_operator_structure he hpending hne ho hfound happly
  rw [hselected, hnamed]
  exact ⟨rfl, rfl, rfl⟩

/-- Two cursors, the one on the second word first. -/
theorem handleKeys_visual_operator_words :
    let d := Document.ofText "abc def".toList
    let ed := Editor.ofDocument d [⟨0, 5⟩, ⟨0, 0⟩]
    let e : Engine := {}
    let o := TextObject.structural "word" (.literal [.char 'i', .char 'w']) (.word .small) false
    let keys : List Key := [.char 'i', .char 'w']
    (∀ sel ∈ ed.selections, sel.active.col < d.lineLen sel.active.line ∧
      ∃ res, o.compute d ⟨some .change, none⟩ sel.active keys = .some res [] ∧
        res.range.lines = none) ∧
    (e.handleKeys ed (.char 'v' :: keys ++ [.char 'c'])).2 =
      (e.handleKeys ed (.char 'c' :: keys)).2 := by
  intro d ed e o keys
  let found (sel : Selection) : ObjectRange :=
    if sel.active = ⟨0, 5⟩ then { range := ⟨⟨0, 4⟩, ⟨0, 7⟩, none⟩ }
    else { range := ⟨⟨0, 0⟩, ⟨0, 3⟩, none⟩ }
  have hchar : ∀ sel ∈ ed.selections, sel.active.col < d.lineLen sel.active.line := by
    decide +kernel
  have ho : o ∈ TextObject.structures := List.mem_of_getElem? (i := 0) rfl
  have hfound : ∀ sel ∈ ed.selections,
      o.compute d ⟨some .change, none⟩ sel.active keys = .some (found sel) [] := by decide +kernel
  have hlines : ∀ sel ∈ ed.selections, (found sel).range.lines = none := by decide +kernel
  exact ⟨fun sel hsel => ⟨hchar sel hsel, found sel, hfound sel hsel, hlines sel hsel⟩,
    (handleKeys_visual_operator e ed d .change o keys found rfl rfl rfl rfl rfl (by decide) hchar ho
      hfound hlines).2.2⟩

end Engine

end ModalEdit
