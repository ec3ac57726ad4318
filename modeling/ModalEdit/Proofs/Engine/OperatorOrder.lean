import ModalEdit.Proofs.Engine.RoundTrip
import ModalEdit.Proofs.Operator.Cursors
import ModalEdit.Proofs.Pattern.Exact
import ModalEdit.Proofs.TwoRuns

/-!
# Operators and the order of the cursors

With the cursors in another order an operator takes the same text object and finds the same ranges
in another order. It answers the same or fails with the same error, makes the same batch of edits
and leaves the same cursors (`OperatorKind.compose_endAlike_perm`). What it stores are the entries
of the merged ranges (`OperatorKind.ends_compose_registers`), which are the same too unless the
ranges are torn (`Action.operator_perm_iff`).
-/

namespace ModalEdit

variable {d : Document} {s : State} {kind : OperatorKind} {keys : List Key} {u : Purpose}

namespace OperatorKind

/-- No keys call no object. -/
theorem foundAt_nil (kind : OperatorKind) (d : Document) (lastFind : Option Find)
    (sels : List Selection) : kind.foundAt d lastFind [] sels = [] := by
  have hnone : (TextObject.behind kind).findSome? (targetsOf d ⟨some kind, lastFind⟩ sels []) =
      none := by
    refine List.findSome?_eq_none_iff.2 fun o ho => ?_
    by_contra hsome
    have hfull := isFull_of_targetsOf (Option.isSome_iff_ne_none.2 hsome)
    cases hparse : o.pattern.parse [] with
    | full captured rest =>
      obtain ⟨taken, hne, happend, -⟩ := TextObject.exact_behind ho [] captured rest hparse
      exact hne (List.append_eq_nil_iff.1 happend.symm).1
    | partly => simp [hparse, Match.isFull] at hfull
    | none => simp [hparse, Match.isFull] at hfull
  rw [foundAt, hnone]
  rfl

end OperatorKind

/-! ### What the operator does -/

/-- The states agree in the document, the mode and the last search, and have the same selections up
to their order. -/
structure State.SameButOrder (s s' : State) : Prop where
  /-- The document. -/
  document : s'.editor.document = s.editor.document
  /-- The selections. -/
  selections : s'.selections.Perm s.selections
  /-- The mode. -/
  mode : s'.mode = s.mode
  /-- The last search. -/
  lastFind : s'.session.lastFind = s.session.lastFind

/-- The states agree in the registers and the clipboard. -/
structure State.SameRegisters (s s' : State) : Prop where
  /-- The registers. -/
  registers : s'.session.registers = s.session.registers
  /-- The clipboard. -/
  clipboard : s'.editor.clipboard = s.editor.clipboard

namespace State

@[simp] theorem lastFind_writeRegisters (s : State) (es : List RegisterEntry) :
    (s.writeRegisters es).session.lastFind = s.session.lastFind := by
  unfold writeRegisters
  split
  · rfl
  · split <;> rfl

theorem edited_writeRegisters (s : State) (after : Document) (es : List RegisterEntry) :
    (s.edited after).writeRegisters es = (s.writeRegisters es).edited after := by
  unfold writeRegisters edited
  by_cases hnil : es.isEmpty
  · simp only [hnil, ↓reduceIte]
  · simp only [hnil, Bool.false_eq_true, ↓reduceIte]
    split <;> rfl

/-- Cursors set in another order are the same up to their order. -/
theorem sameButOrder_setCursors {s s' : State} (hdoc : s'.editor.document = s.editor.document)
    (hfind : s'.session.lastFind = s.session.lastFind) {ps ps' : List Position}
    (hperm : ps'.Perm ps) (m : Mode) :
    ((s.setCursors ps).setMode m).SameButOrder ((s'.setCursors ps').setMode m) where
  document := by simpa using hdoc
  selections := by
    simpa using (perm_eraseDups hperm).map Selection.cursor
  mode := rfl
  lastFind := hfind

end State

namespace Step

/-- **An operator on targets in another order** makes the same edits and sets the same cursors. -/
theorem apply_endAlike_perm {withBreak : Bool} {targets targets' : List Target}
    (hperm : targets'.Perm targets) (horderly : d.Orderly withBreak (targets.filterMap (·.2)))
    (pl : Placement) (hdoc : s.editor.document = some d) (sels : List Selection) :
    EndAlike (kind.apply pl d targets false) (kind.apply pl d targets' false) s
      (s.withSelections sels) (fun _ t t' => t.SameButOrder t')
      (fun t t' => t = s ∧ t' = s.withSelections sels) := by
  have hdeletions := horderly.deletions_perm (hperm.filterMap _)
  unfold OperatorKind.apply
  dsimp only
  split
  · rw [endAlike_modify]
    exact State.sameButOrder_setCursors (by simp) (by simp) (hperm.map _) _
  · rw [hdeletions]
    refine EndAlike.bind (endAlike_commit hdoc hdoc rfl (fun after plan _ => ?_) ⟨rfl, rfl⟩)
    rw [endAlike_modify]
    exact State.sameButOrder_setCursors (by simp) (by simp) (hperm.map _) _

end Step

namespace OperatorKind

/-- **An operator with the cursors in another order** gives the same answer or the same error. When
it has run, the two states are the same but for the order of the cursors and the registers; when it
has failed, nothing has changed. -/
theorem compose_endAlike_perm (settings : Settings) (hdoc : s.editor.document = some d)
    {sels : List Selection} (hperm : sels.Perm s.selections) :
    Step.EndAlike (kind.compose settings d keys) (kind.compose settings d keys) s
      (s.withSelections sels) (fun _ t t' => t.SameButOrder t')
      (fun t t' => t = s ∧ t' = s.withSelections sels) := by
  unfold compose
  rw [Step.endAlike_get_bind]
  simp only [State.selections_withSelections, State.session_withSelections]
  rcases findSome?_targetsOf_perm d ⟨some kind, s.session.lastFind⟩ keys
    (TextObject.wholeLine kind :: TextObject.defaults) s.selections with hnone | ⟨o, hfound⟩
  · simp only [hnone _ (.refl _), hnone _ hperm, awaits_perm hperm]
    exact Step.endAlike_pure.2 ⟨rfl, hperm, rfl, rfl⟩
  · have htargets := (hfound _ (.refl _)).1
    simp only [(hfound _ (.refl _)).2, (hfound _ hperm).2]
    refine Step.EndAlike.bind ((Step.apply_endAlike_perm ((hperm.map _).map _)
      (orderly_of_targets htargets) settings.placement hdoc sels).mono (fun _ t t' h => ?_)
      fun _ _ h => h)
    rw [Step.endAlike_modify_bind, Step.endAlike_pure]
    rw [findSome?_find_perm hperm]
    exact ⟨h.document, h.selections, h.mode, congrArg (Option.or _) h.lastFind⟩

/-- **What the operator stores** is the entries of the ranges it finds. -/
theorem ends_apply_registers (kind : OperatorKind) (pl : Placement) (targets : List Target)
    (ofSelection : Bool) (hdoc : s.editor.document = some d) :
    (kind.apply pl d targets ofSelection).Ends s
      (fun _ t => (s.writeRegisters (d.entriesOf (targets.filterMap (·.2)))).SameRegisters t)
      fun _ _ => True := by
  unfold apply
  dsimp only
  split
  · rw [Step.ends_modify]
    exact ⟨by simp [Document.entriesOf], by simp [Document.entriesOf]⟩
  · rw [Step.ends_bind]
    refine Step.ends_commit hdoc (fun after plan _ => ?_) fun _ _ => trivial
    rw [Step.ends_modify, State.edited_writeRegisters]
    exact ⟨by simp [Document.entriesOf], by simp [Document.entriesOf]⟩

/-- Nothing found is nothing stored. -/
theorem writeRegisters_nothing (s : State) (d : Document) :
    s.writeRegisters (d.entriesOf (rangesOf [])) = s := by
  simp [rangesOf, Document.entriesOf, Document.mergeRanges]

theorem ends_compose_registers (kind : OperatorKind) (settings : Settings) (keys : List Key)
    (hdoc : s.editor.document = some d) : (kind.compose settings d keys).Ends s
      (fun _ t => (s.writeRegisters (d.entriesOf (rangesOf
        (kind.foundAt d s.session.lastFind keys s.selections)))).SameRegisters t)
      fun _ _ => True := by
  unfold compose
  rw [Step.ends_bind, Step.ends_get]
  dsimp only
  have hfoundAt : kind.foundAt d s.session.lastFind keys s.selections =
      ((TextObject.wholeLine kind :: TextObject.defaults).findSome?
        (targetsOf d ⟨some kind, s.session.lastFind⟩ s.selections keys)).getD [] := rfl
  rw [hfoundAt]
  cases (TextObject.wholeLine kind :: TextObject.defaults).findSome?
      (targetsOf d ⟨some kind, s.session.lastFind⟩ s.selections keys) with
  | none =>
    rw [Option.getD_none, writeRegisters_nothing]
    exact ⟨rfl, rfl⟩
  | some found =>
    rw [Step.ends_bind]
    refine (ends_apply_registers kind settings.placement _ false hdoc).mono (fun _ t h => ?_)
      fun _ _ _ => trivial
    rw [filterMap_targets] at h
    rw [Step.ends_bind, Step.ends_modify, Step.ends_pure]
    exact ⟨h.registers, h.clipboard⟩

end OperatorKind

namespace Action

/-- The operator waits for an object and then goes on with its keys. -/
theorem answer_operator (kind : OperatorKind) (settings : Settings) (object : List Key) :
    (operator kind).answer settings (kind.key :: object) =
      if object.isEmpty then pure .needsMore
      else Step.withDocument fun d => kind.compose settings d object := by
  simp only [answer, Pattern.parseLiteral, ↓reduceIte]

/-- An operator with the cursors in another order, from its first key on. -/
theorem operator_endAlike_perm (kind : OperatorKind) (settings : Settings) (object : List Key)
    {sels : List Selection} (hperm : sels.Perm s.selections) :
    Step.EndAlike ((operator kind).answer settings (kind.key :: object))
      ((operator kind).answer settings (kind.key :: object)) s (s.withSelections sels)
      (fun _ t t' => t.SameButOrder t') (fun t t' => t = s ∧ t' = s.withSelections sels) := by
  rw [answer_operator]
  split
  · exact Step.endAlike_pure.2 ⟨rfl, hperm, rfl, rfl⟩
  · cases hdoc : s.editor.document with
    | some d =>
      exact Step.endAlike_withDocument hdoc hdoc
        (OperatorKind.compose_endAlike_perm settings hdoc hperm)
    | none =>
      have hdoc' : (s.withSelections sels).editor.document = none := hdoc
      simp only [Step.EndAlike, Step.withDocument, Step.get_bind, hdoc, hdoc']
      exact ⟨rfl, rfl, rfl⟩

/-- What an operator stores, from its first key on. -/
theorem ends_operator_registers (kind : OperatorKind) (settings : Settings) (object : List Key)
    (hdoc : s.editor.document = some d) :
    ((operator kind).answer settings (kind.key :: object)).Ends s
      (fun _ t => (s.writeRegisters (d.entriesOf (OperatorKind.rangesOf
        (kind.foundAt d s.session.lastFind object s.selections)))).SameRegisters t)
      fun _ _ => True := by
  rw [answer_operator]
  split
  · rename_i hnil
    obtain rfl := List.isEmpty_iff.1 hnil
    rw [Step.ends_pure, OperatorKind.foundAt_nil, OperatorKind.writeRegisters_nothing]
    exact ⟨rfl, rfl⟩
  · rw [Step.ends_withDocument_of_some hdoc]
    exact OperatorKind.ends_compose_registers kind settings object hdoc

/-- An operator that takes nothing away runs. -/
theorem ends_operator_of_keeps {object : List Key}
    {found : List (Selection × Option ObjectRange)} (settings : Settings) (hne : object ≠ [])
    (hdoc : s.editor.document = some d)
    (hfound : (TextObject.behind kind).findSome?
      (OperatorKind.targetsOf d ⟨some kind, s.session.lastFind⟩ s.selections object) = some found)
    (hkeeps : kind = .yank ∨ s.editor.readonly = false ∧
      ∀ q ∈ d.mergeRanges (OperatorKind.rangesOf found), q.isEmpty = true) :
    ((operator kind).answer settings (kind.key :: object)).Ends s (fun r _ => r = .executed)
      fun _ _ => False := by
  rw [answer_operator, if_neg (by simpa using hne), Step.ends_withDocument_of_some hdoc]
  rw [TextObject.behind] at hfound
  simp only [OperatorKind.compose, Step.ends_bind, Step.ends_get, hfound, OperatorKind.apply,
    OperatorKind.filterMap_targets]
  split
  · exact rfl
  · rename_i hkind
    obtain ⟨hreadonly, hempty⟩ := hkeeps.resolve_left hkind
    have hnone : OperatorKind.deletions (d.mergeRanges (OperatorKind.rangesOf found)) = [] := by
      rw [OperatorKind.deletions, List.filter_eq_nil_iff.2 fun q hq => by simp [hempty q hq]]
      rfl
    rw [hnone, Step.ends_bind]
    refine Step.ends_commit hdoc (fun _ _ _ => rfl) fun e he => ?_
    rcases he with ⟨c, hc, -⟩ | h
    · rw [d.edit_nil] at hc
      cases hc
    · rw [hreadonly] at h
      cases h

/-- Where the ranges are found in order, what is stored can be told without sorting them. -/
theorem entries_of_operator {object : List Key} {settings : Settings} {r : Reply} {t : State}
    {found : List (Selection × Option ObjectRange)} {entries : List RegisterEntry}
    (hdoc : s.editor.document = some d)
    (hrun : (operator kind).answer settings (kind.key :: object) s = .ok r t)
    (hfound : (TextObject.behind kind).findSome?
      (OperatorKind.targetsOf d ⟨some kind, s.session.lastFind⟩ s.selections object) = some found)
    (hsorted : (OperatorKind.rangesOf found).Pairwise fun r q => r.precedes q = true)
    (hentries : ((Range.mergeSorted d (OperatorKind.rangesOf found)).map d.registerEntry).filter
      (fun e => !e.text.isEmpty) = entries) (hne : entries ≠ []) :
    t.session.registers.entries = entries := by
  have hregisters := ((ends_operator_registers kind settings object hdoc).of_ok hrun).registers
  have hfoundAt : kind.foundAt d s.session.lastFind object s.selections = found :=
    congrArg (·.getD []) hfound
  rw [hfoundAt, Document.entriesOf, Document.mergeRanges_of_pairwise hsorted, hentries]
    at hregisters
  rw [hregisters]
  exact s.entries_writeRegisters hne

/-- What an operator stores with other selections. -/
theorem registers_of_operator {object : List Key} {settings : Settings} {sels : List Selection}
    {r : Reply} {t : State} (hdoc : s.editor.document = some d)
    (hrun : (operator kind).answer settings (kind.key :: object) (s.withSelections sels) =
      .ok r t) :
    (s.writeRegisters (d.entriesOf (OperatorKind.rangesOf
      (kind.foundAt d s.session.lastFind object sels)))).SameRegisters t := by
  have h := (ends_operator_registers kind settings object
    (s := s.withSelections sels) hdoc).of_ok hrun
  rw [State.writeRegisters_withSelections] at h
  exact ⟨h.registers, h.clipboard⟩

/-- Ranges that are not torn are stored the same for every order of the cursors. -/
theorem sameRegisters_of_not_torn {object : List Key} {settings : Settings} {sels : List Selection}
    {r r' : Reply} {t t' : State} (hdoc : s.editor.document = some d)
    (hperm : sels.Perm s.selections)
    (htorn : ¬ Range.Torn
      (OperatorKind.rangesOf (kind.foundAt d s.session.lastFind object s.selections)))
    (hrun : (operator kind).answer settings (kind.key :: object) s = .ok r t)
    (hrun' : (operator kind).answer settings (kind.key :: object) (s.withSelections sels) =
      .ok r' t') : t.SameRegisters t' := by
  have h := (ends_operator_registers kind settings object hdoc).of_ok hrun
  have h' := registers_of_operator hdoc hrun'
  obtain ⟨range, withBreak, hranges⟩ :=
    OperatorKind.exists_rangesAt kind d s.session.lastFind object s.selections
  obtain ⟨hfound, horderly⟩ := hranges s.selections (.refl _)
  rw [hfound] at h htorn
  have hperm' := hperm.filterMap range
  have hentries := (horderly.entriesOf_eq_iff hperm').2
    (Range.emptyRuns_perm horderly.span htorn hperm')
  rw [(hranges sels hperm).1, hentries] at h'
  exact ⟨h'.registers.trans h.registers.symm, h'.clipboard.trans h.clipboard.symm⟩

/-- Of torn ranges two orders of the cursors store different entries: one stores a single entry for
the empty line, the other one more of them. -/
theorem exists_orders_of_torn {object : List Key} {settings : Settings} {r : Reply} {t : State}
    (hdoc : s.editor.document = some d)
    (htorn : Range.Torn
      (OperatorKind.rangesOf (kind.foundAt d s.session.lastFind object s.selections)))
    (hrun : (operator kind).answer settings (kind.key :: object) s = .ok r t) :
    ∃ sels₁ sels₂ t₁ t₂, sels₁.Perm s.selections ∧ sels₂.Perm s.selections ∧
      (operator kind).answer settings (kind.key :: object) (s.withSelections sels₁) = .ok r t₁ ∧
      (operator kind).answer settings (kind.key :: object) (s.withSelections sels₂) = .ok r t₂ ∧
      t₁.session.registers.entries ≠ t₂.session.registers.entries := by
  obtain ⟨range, withBreak, hranges⟩ :=
    OperatorKind.exists_rangesAt kind d s.session.lastFind object s.selections
  rw [(hranges s.selections (.refl _)).1] at htorn
  obtain ⟨rs₁, rs₂, hperm₁, hperm₂, hone, hmore⟩ := Range.exists_perm_of_torn htorn
  -- Each order of the ranges comes from one of the cursors, and something is stored in it.
  have hstored {rs : List Range} (hperm : rs.Perm (s.selections.filterMap range))
      (hruns : 0 < Range.emptyRuns rs) : ∃ sels t', sels.Perm s.selections ∧
        (operator kind).answer settings (kind.key :: object) (s.withSelections sels) = .ok r t' ∧
        t'.session.registers.entries = d.entriesOf rs := by
    obtain ⟨sels, hsels, rfl⟩ := exists_filterMap_eq_of_perm hperm
    rcases (operator_endAlike_perm kind settings object hsels).cases with
      ⟨r', t₁, t', hrun₁, hrun', -⟩ | ⟨e, t₁, t', hrun₁, -⟩
    · cases hrun.symm.trans hrun₁
      refine ⟨sels, t', hsels, hrun', ?_⟩
      obtain ⟨hfound, horderly⟩ := hranges sels hsels
      rw [(registers_of_operator hdoc hrun').registers, hfound]
      refine s.entries_writeRegisters fun hnil => ?_
      rw [horderly.entriesOf_eq] at hnil
      simp only [List.append_eq_nil_iff, List.replicate_eq_nil_iff] at hnil
      omega
    · cases hrun.symm.trans hrun₁
  obtain ⟨sels₁, t₁, hsels₁, hrun₁, hentries₁⟩ := hstored hperm₁ (by omega)
  obtain ⟨sels₂, t₂, hsels₂, hrun₂, hentries₂⟩ := hstored hperm₂ (by omega)
  refine ⟨sels₁, sels₂, t₁, t₂, hsels₁, hsels₂, hrun₁, hrun₂, ?_⟩
  have horderly := (hranges s.selections (.refl _)).2.of_perm hperm₂
  rw [hentries₁, hentries₂, ne_eq, horderly.entriesOf_eq_iff (hperm₁.trans hperm₂.symm)]
  omega

/-- **When an operator depends on the order of the cursors.** With the cursors in another order an
operator gives the same answer or the same error; when it has run, the document, the mode, the last
search and the set of cursors are the same, and when it has failed, nothing has changed. The
registers and the clipboard are the same for all orders too, if and only if the ranges found are not
torn. -/
theorem operator_perm_iff (kind : OperatorKind) (settings : Settings) (object : List Key)
    (s : State) :
    let run := (operator kind).answer settings (kind.key :: object)
    (∀ sels, sels.Perm s.selections → run.EndAlike run s (s.withSelections sels)
      (fun _ t t' => t.SameButOrder t') fun t t' => t = s ∧ t' = s.withSelections sels) ∧
    ∀ d r t, s.editor.document = some d → run s = .ok r t →
      ((∀ sels r' t', sels.Perm s.selections → run (s.withSelections sels) = .ok r' t' →
          t.SameRegisters t') ↔
        ¬ Range.Torn
          (OperatorKind.rangesOf (kind.foundAt d s.session.lastFind object s.selections))) := by
  intro run
  refine ⟨fun sels hperm => operator_endAlike_perm kind settings object hperm, ?_⟩
  intro d r t hdoc hrun
  constructor
  · intro hsame htorn
    obtain ⟨sels₁, sels₂, t₁, t₂, hsels₁, hsels₂, hrun₁, hrun₂, hne⟩ :=
      exists_orders_of_torn hdoc htorn hrun
    have h₁ := (hsame sels₁ r t₁ hsels₁ hrun₁).registers
    have h₂ := (hsame sels₂ r t₂ hsels₂ hrun₂).registers
    exact hne (congrArg Registers.entries (h₁.trans h₂.symm))
  · intro htorn sels r' t' hperm hrun'
    exact sameRegisters_of_not_torn hdoc hperm htorn hrun hrun'

/-- Two cursors, the last one in the document first: the words behind them are yanked to the same
entries as with the cursors in document order. -/
theorem operator_perm_swapped :
    let d := Document.ofText ['a', 'b', '\n', 'c', 'd']
    let s : State := ⟨Editor.ofDocument d [⟨1, 0⟩, ⟨0, 0⟩], {}⟩
    let sels : List Selection := [.cursor ⟨0, 0⟩, .cursor ⟨1, 0⟩]
    let run := (operator .yank).answer {} [.char 'y', .char 'w']
    sels.Perm s.selections ∧ ∃ r t t', run s = .ok r t ∧ run (s.withSelections sels) = .ok r t' ∧
      t.SameRegisters t' ∧
      t.session.registers.entries = [⟨['a', 'b'], false⟩, ⟨['c', 'd'], false⟩] := by
  intro d s sels run
  have hperm : sels.Perm s.selections := by decide
  obtain ⟨halike, hregisters⟩ := operator_perm_iff .yank {} [.char 'w'] s
  have hran : run.Ends s (fun r _ => r = .executed) fun _ _ => False :=
    ends_operator_of_keeps {} (List.cons_ne_nil (Key.char 'w') []) rfl rfl (.inl rfl)
  obtain ⟨r, t, hrun, -⟩ := hran.exists_ok
  rcases (halike sels hperm).cases with ⟨r', t₁, t', hrun₁, hrun', -⟩ | ⟨e, t₁, t', hrun₁, -⟩
  · cases hrun.symm.trans hrun₁
    have hsame := (hregisters d r t rfl hrun).2 (by decide +kernel) sels r t' hperm hrun'
    refine ⟨hperm, r, t, t', hrun, hrun', hsame, ?_⟩
    rw [← hsame.registers]
    exact entries_of_operator (s := s.withSelections sels) rfl hrun' rfl (by decide) (by decide)
      (by decide)
  · cases hrun.symm.trans hrun₁

/-- Two cursors are at the start of the second line, one of them past its end. A word back from
there stands for the empty first line, and from the cursor there for nothing. Listed between the
other two that cursor makes a second entry of the line. -/
theorem not_operator_perm :
    let d := Document.ofText ['\n', '\n', 'a', 'b', 'c']
    let after (cursors : List Position) :=
      (operator .change).answer {} [.char 'c', .char 'b'] ⟨Editor.ofDocument d cursors, {}⟩
    [⟨1, 0⟩, ⟨1, 2⟩, ⟨0, 0⟩].Perm [(⟨1, 0⟩ : Position), ⟨0, 0⟩, ⟨1, 2⟩] ∧
      (∃ t, after [⟨1, 0⟩, ⟨0, 0⟩, ⟨1, 2⟩] = .ok .executed t ∧
        t.session.registers.entries = [⟨['\n'], true⟩, ⟨['\n'], true⟩]) ∧
      ∃ t, after [⟨1, 0⟩, ⟨1, 2⟩, ⟨0, 0⟩] = .ok .executed t ∧
        t.session.registers.entries = [⟨['\n'], true⟩] := by
  intro d after
  have hstored (cursors : List Position) (found : List (Selection × Option ObjectRange))
      (hfound : (TextObject.behind .change).findSome? (OperatorKind.targetsOf d
        ⟨some .change, none⟩ (Editor.ofDocument d cursors).selections [.char 'b']) = some found)
      (hsorted : (OperatorKind.rangesOf found).Pairwise fun r q => r.precedes q = true)
      (hempty : ∀ q ∈ Range.mergeSorted d (OperatorKind.rangesOf found), q.isEmpty = true)
      (entries : List RegisterEntry) (hne : entries ≠ [])
      (hentries : ((Range.mergeSorted d (OperatorKind.rangesOf found)).map
        d.registerEntry).filter (fun e => !e.text.isEmpty) = entries) :
      ∃ t, after cursors = .ok .executed t ∧ t.session.registers.entries = entries := by
    obtain ⟨r, t, hrun, rfl⟩ := (ends_operator_of_keeps (s := ⟨Editor.ofDocument d cursors, {}⟩) {}
      (List.cons_ne_nil _ _) rfl hfound
      (.inr ⟨rfl, Document.mergeRanges_of_pairwise hsorted ▸ hempty⟩)).exists_ok
    exact ⟨t, hrun, entries_of_operator rfl hrun hfound hsorted hentries hne⟩
  refine ⟨by decide, ?_, ?_⟩
  · exact hstored _ _ rfl (by decide) (by decide) _ (by decide) (by decide)
  · exact hstored _ _ rfl (by decide) (by decide) _ (by decide) (by decide)

end Action

end ModalEdit
