import ModalEdit.Proofs.Action.Acts
import ModalEdit.Proofs.Command.PasteOver
import ModalEdit.Proofs.Operator.Pieces
import ModalEdit.Proofs.Selection.Cover
import ModalEdit.Proofs.Selection.Recall
import ModalEdit.Proofs.TwoRuns

/-!
# Selecting what an operator would take

Visual mode begins at the character under each cursor, and that character is the head from which a
text object is looked for (`Document.charEndpoints_covering_entryChar`). A structure that finds a
piece of characters finds the same one for an operator and for a selection
(`TextObject.compute_of_mem_structures`), so the selections become the pieces that the operator
would take (`Step.selectObject_of_cursors`), and an operator on the selections takes them
(`OperatorKind.operate_of_pieces`).

What an operator does to characters does not depend on the selections, the mode and the pending
keys, and none of them is left when it has run (`OperatorKind.apply_withView`). Of the selections
themselves it asks only for their ranges (`Step.operate_endAlike`).
-/

namespace ModalEdit

variable {α : Type} {d : Document} {o : TextObject} {keys : List Key} {s : State}

/-! ### The character under the cursor -/

namespace Document

variable {p : Position}

theorem inBounds_of_lt_lineLen (h : p.col < d.lineLen p.line) : d.InBounds p := by
  refine ⟨?_, Nat.le_of_lt h⟩
  by_contra hline
  have hnone : d.lines[p.line]? = none := List.getElem?_eq_none (Nat.le_of_not_lt hline)
  have hempty : d.lineLen p.line = 0 := by
    rw [lineLen, content, line?, hnone]
    rfl
  omega

/-- A cursor on a character begins a selection at that character. -/
theorem entryChar_of_lt (h : p.col < d.lineLen p.line) : d.entryChar p = p := by
  have hclamp := d.clamp_of_inBounds (inBounds_of_lt_lineLen h)
  rw [entryChar, hclamp, if_neg (fun hend => Nat.not_le.2 h hend.1), clampChar, hclamp]
  exact if_neg fun hend => Nat.not_le.2 h hend.2

/-- The selections with which Visual mode begins: the character under each cursor. -/
def charSelections (d : Document) (sels : List Selection) : List Selection :=
  sels.map fun sel => d.covering (d.entryChar sel.active) (d.entryChar sel.active)

/-- **The head of a selection that has just begun** is the character under the cursor. -/
theorem charEndpoints_covering_entryChar (h : p.col < d.lineLen p.line) :
    d.charEndpoints (d.covering (d.entryChar p) (d.entryChar p)) = (p, p) := by
  have hchar : d.NamesChar p := by
    refine namesChar_iff.2 ⟨inBounds_of_lt_lineLen h, fun _ => ?_⟩
    exact Nat.le_sub_one_of_lt h
  rw [entryChar_of_lt h, charEndpoints_covering_self hchar]

end Document

/-! ### What a structure finds -/

namespace TextObject

variable {u : Purpose} {p : Position} {res : ObjectRange} {rest : List Key}

/-- **A structure finds the same characters whatever they are for**: only whole lines depend on
it. -/
theorem compute_of_mem_structures (ho : o ∈ structures) (h : o.compute d u p keys = .some res rest)
    (hlines : res.range.lines = none) (u' : Purpose) : o.compute d u' p keys = .some res rest := by
  obtain ⟨name, pattern, kind, around, rfl⟩ := exists_of_mem_structures ho
  cases kind with
  | paragraph =>
    rw [compute] at h
    obtain ⟨key, hspan⟩ := Found.ofMatch_eq_some h
    obtain rfl := Option.some.inj hspan
    cases hlines
  | word | pair | quote | tag => exact h

/-- A structure remembers no search. -/
theorem find_of_mem_structures (ho : o ∈ structures)
    (h : o.compute d u p keys = .some res rest) : res.find = none := by
  obtain ⟨name, pattern, kind, around, rfl⟩ := exists_of_mem_structures ho
  rw [compute] at h
  obtain ⟨key, hspan⟩ := Found.ofMatch_eq_some h
  obtain ⟨r, -, rfl⟩ := Option.map_eq_some_iff.1 hspan
  rfl

theorem structures_subset_behind (kind : OperatorKind) : structures ⊆ behind kind := fun _ ho =>
  List.mem_cons_of_mem _ (List.mem_append_left _ ho)

end TextObject

/-! ### Selecting the object -/

section

variable {l : List α} {view : α → Selection} {found : α → ObjectRange}

/-- Pieces of characters are selected as they are. -/
theorem coverRanges_of_pieces (hlines : ∀ x ∈ l, (found x).range.lines = none) :
    coverRanges d false (l.map fun x => (view x, some (found x))) =
      (l.map fun x => ⟨(found x).range.start, (found x).range.stop⟩, false) := by
  induction l with
  | nil => rfl
  | cons x l ih =>
    obtain ⟨hx, hl⟩ := List.forall_mem_cons.1 hlines
    simp only [List.map_cons, coverRanges, hx, ih hl, Bool.false_eq_true, ↓reduceIte]

namespace State

theorem rangesAtHeads_of_found (hne : l ≠ []) (hsels : s.selections = l.map view)
    (hfound : ∀ x ∈ l, o.compute d ⟨none, s.session.lastFind⟩ (s.head d (view x)) keys =
      .some (found x) []) :
    s.rangesAtHeads d keys o = some (l.map fun x => (view x, some (found x))) := by
  have hmap : (s.objectsAtHeads d keys o).map (fun f => (f.1, f.2.result?)) =
      l.map fun x => (view x, some (found x)) := by
    rw [objectsAtHeads, hsels, List.map_map, List.map_map]
    refine List.map_congr_left fun x hx => ?_
    simp only [Function.comp_apply, hfound x hx]
    rfl
  obtain ⟨x, hx⟩ := List.exists_mem_of_ne_nil l hne
  have hany : (l.map fun x => (view x, some (found x))).any (·.2.isSome) = true :=
    List.any_eq_true.2 ⟨_, List.mem_map_of_mem hx, rfl⟩
  rw [rangesAtHeads, hmap]
  exact if_pos hany

theorem isFull_of_rangesAtHeads (h : (s.rangesAtHeads d keys o).isSome) :
    (o.pattern.parse keys).isFull = true := by
  obtain ⟨p, -, hresult⟩ := isSome_rangesAtHeads_iff.1 h
  exact TextObject.isFull_of_result? hresult

end State

namespace Step

/-- **The keys of a structure select what it finds at the heads**, if these are characters. -/
theorem selectObject_of_found (ho : o ∈ TextObject.structures) (hne : l ≠ [])
    (hmode : s.mode = .visual) (hsels : s.selections = l.map view)
    (hfound : ∀ x ∈ l, o.compute d ⟨none, s.session.lastFind⟩ (s.head d (view x)) keys =
      .some (found x) [])
    (hlines : ∀ x ∈ l, (found x).range.lines = none) :
    selectObject d keys s = .ok .executed
      (s.select (l.map fun x => ⟨(found x).range.start, (found x).range.stop⟩)) := by
  obtain ⟨x, hx⟩ := List.exists_mem_of_ne_nil l hne
  obtain ⟨captured, hparse⟩ := TextObject.parse_of_compute (hfound x hx)
  have hfirst := TextObject.findSome?_of_parse (TextObject.structures_subset_behind .delete) ho
    hparse (fun _ => State.isFull_of_rangesAtHeads) (State.rangesAtHeads_of_found hne hsels hfound)
  have hvisual : (s.mode == .visualLine) = false := by rw [hmode]; rfl
  rw [selectObject, get_bind]
  simp only [hfirst, hvisual, coverRanges_of_pieces hlines]
  rfl

/-- **Where Visual mode has just begun** the keys of a structure select what it finds at the
cursors. -/
theorem selectObject_of_cursors {sels : List Selection} {found : Selection → ObjectRange}
    {u : Purpose} (ho : o ∈ TextObject.structures) (hne : sels ≠ []) (hmode : s.mode = .visual)
    (hsels : s.selections = d.charSelections sels)
    (hchar : ∀ sel ∈ sels, sel.active.col < d.lineLen sel.active.line)
    (hfound : ∀ sel ∈ sels, o.compute d u sel.active keys = .some (found sel) [])
    (hlines : ∀ sel ∈ sels, (found sel).range.lines = none) :
    selectObject d keys s = .ok .executed
      (s.select (sels.map fun sel => ⟨(found sel).range.start, (found sel).range.stop⟩)) := by
  refine selectObject_of_found ho hne hmode hsels (fun sel hsel => ?_) hlines
  -- The head of every selection is the character under the cursor it has come from.
  rw [State.head, hmode, if_neg (by decide),
    Document.charEndpoints_covering_entryChar (hchar sel hsel)]
  exact TextObject.compute_of_mem_structures ho (hfound sel hsel) (hlines sel hsel) _

/-- The first key of a structure waits for the second. -/
theorem selectObject_waits (ho : o ∈ TextObject.structures) (hne : s.selections ≠ [])
    (hwaits : o.pattern.parse keys = .partly)
    (hnone : ∀ o ∈ TextObject.structures, (o.pattern.parse keys).isFull = false) :
    selectObject d keys s = .ok .needsMore s := by
  have hfirst : TextObject.structures.findSome? (s.rangesAtHeads d keys) = none := by
    refine List.findSome?_eq_none_iff.2 fun o' ho' => ?_
    by_contra hsome
    have hfull := State.isFull_of_rangesAtHeads (Option.isSome_iff_ne_none.2 hsome)
    rw [hnone o' ho'] at hfull
    cases hfull
  have hpartly : (TextObject.structures.any fun o =>
      (s.objectsAtHeads d keys o).any (·.2.isPartly)) = true := by
    obtain ⟨sel, hsel⟩ := List.exists_mem_of_ne_nil _ hne
    exact List.any_eq_true.2 ⟨o, ho, List.any_eq_true.2
      ⟨_, List.mem_map_of_mem hsel, TextObject.isPartly_compute hwaits _ _ _⟩⟩
  rw [selectObject, get_bind]
  simp only [hfirst, hpartly, ↓reduceIte]
  rfl

end Step

end

/-! ### An operator on pieces of characters -/

namespace State

/-- The state with another view of the document: other selections, another position brought into
view, another mode and other pending keys. -/
def withView (s : State) (sels : List Selection) (shown : Option Position) (m : Mode)
    (pending : List Key) : State :=
  ⟨{ s.editor with selections := sels, revealed := shown },
    { s.session with mode := m, pending }⟩

/-- The state with other pending keys. -/
def withPending (s : State) (pending : List Key) : State :=
  { s with session := { s.session with pending } }

variable (s : State) (sels : List Selection) (shown : Option Position) (m : Mode)
  (pending : List Key)

theorem edited_withView (after : Document) :
    (s.withView sels shown m pending).edited after =
      (s.edited after).withView sels shown m pending := rfl

theorem writeRegisters_withView (entries : List RegisterEntry) :
    (s.withView sels shown m pending).writeRegisters entries =
      (s.writeRegisters entries).withView sels shown m pending := by
  unfold writeRegisters withView
  by_cases hnil : entries.isEmpty
  · simp only [hnil, ↓reduceIte]
  · simp only [hnil, Bool.false_eq_true, ↓reduceIte]
    split <;> rfl

/-- Setting cursors and the mode leaves nothing of the view but the pending keys. -/
theorem setCursors_withView {ps : List Position} (hne : ps ≠ []) (m' : Mode) :
    ((s.withView sels shown m pending).setCursors ps).setMode m' =
      ((s.setCursors ps).setMode m').withPending pending := by
  obtain ⟨p, ps, rfl⟩ := List.exists_cons_of_ne_nil hne
  simp only [setCursors, Editor.setCursors, Editor.select, List.eraseDups_cons, List.map_cons,
    List.head?_cons]
  rfl

end State

namespace OperatorKind

variable {kind : OperatorKind} {pl : Placement}

/-- The ranges of targets all of which have one. -/
theorem filterMap_map_some (l : List α) (view : α → Selection) (range : α → Range) :
    (l.map fun x => ((view x, some (range x)) : Target)).filterMap (·.2) = l.map range := by
  rw [List.filterMap_map]
  exact congrFun (List.filterMap_eq_map (f := range)) l

/-- An operator asks only for the ranges, and a yank for where it leads from each of them. -/
theorem apply_eq_of_ranges (kind : OperatorKind) (pl : Placement) (d : Document) {l : List α}
    {range : α → Range} {view view' : α → Selection} {ofSelection ofSelection' : Bool}
    (hyank : ∀ x ∈ l, yankedTo ofSelection (view x, some (range x)) =
      yankedTo ofSelection' (view' x, some (range x))) :
    kind.apply pl d (l.map fun x => (view x, some (range x))) ofSelection =
      kind.apply pl d (l.map fun x => (view' x, some (range x))) ofSelection' := by
  have hyanked : (l.map fun x => ((view x, some (range x)) : Target)).map
      (fun t => pl.clamp d (yankedTo ofSelection t)) =
        (l.map fun x => ((view' x, some (range x)) : Target)).map
          fun t => pl.clamp d (yankedTo ofSelection' t) := by
    rw [List.map_map, List.map_map]
    refine List.map_congr_left fun x hx => ?_
    simp only [Function.comp_apply, hyank x hx]
  have hremoved (after : Document) (plan : Plan) :
      (l.map fun x => ((view x, some (range x)) : Target)).map
        (kind.removedTo pl d after plan ofSelection) =
          (l.map fun x => ((view' x, some (range x)) : Target)).map
            (kind.removedTo pl d after plan ofSelection') := by
    rw [List.map_map, List.map_map]
    rfl
  simp only [apply, filterMap_map_some, hyanked, hremoved]

/-- **An operator on selections that are pieces of characters** does the same as one on pieces that
are found elsewhere. -/
theorem operate_of_pieces (settings : Settings) (hmode : s.mode = .visual) {l : List α}
    {range : α → Range} (hsels : s.selections = l.map fun x => ⟨(range x).start, (range x).stop⟩)
    (hpieces : ∀ x ∈ l, d.IsPiece (range x)) (view : α → Selection) :
    Step.operate settings d kind s =
      kind.apply settings.placement d (l.map fun x => (view x, some (range x))) false s := by
  have hrange : ∀ x ∈ l,
      s.selectedRange d (kind != .change) ⟨(range x).start, (range x).stop⟩ = range x := by
    intro x hx
    have hpiece := hpieces x hx
    rw [State.selectedRange, hmode, if_neg (by decide), Selection.range,
      Range.between_of_le hpiece.le, ← hpiece.lines]
  have htargets : s.selectedTargets d kind =
      l.map fun x => (⟨(range x).start, (range x).stop⟩, some (range x)) := by
    rw [State.selectedTargets, hsels, List.map_map]
    refine List.map_congr_left fun x hx => ?_
    simp only [Function.comp_apply, hrange x hx]
  rw [Step.operate, Step.get_bind, htargets]
  refine congrFun (apply_eq_of_ranges kind _ d fun x hx => ?_) s
  simp only [yankedTo, (hpieces x hx).lines]

variable {targets : List Target} {ofSelection : Bool}

theorem apply_endAlike_withView (hne : targets ≠ []) (hdoc : s.editor.document = some d)
    (sels : List Selection) (shown : Option Position) (m : Mode) (pending : List Key) :
    Step.EndAlike (kind.apply pl d targets ofSelection) (kind.apply pl d targets ofSelection) s
      (s.withView sels shown m pending) (fun _ t t' => t' = t.withPending pending)
      fun _ _ => True := by
  unfold apply
  dsimp only
  split
  · rw [Step.endAlike_modify, State.writeRegisters_withView]
    exact State.setCursors_withView _ _ _ _ _ (by simpa using hne) _
  · refine Step.EndAlike.bind (Step.endAlike_commit hdoc hdoc rfl (fun after plan _ => ?_) trivial)
    rw [Step.endAlike_modify, State.edited_withView, State.writeRegisters_withView]
    exact State.setCursors_withView _ _ _ _ _ (by simpa using hne) _

/-- **Nothing of the view is left when an operator has run**, except the pending keys. -/
theorem apply_withView {t : State} (hne : targets ≠ []) (hdoc : s.editor.document = some d)
    (hrun : kind.apply pl d targets ofSelection s = .ok () t) (sels : List Selection)
    (shown : Option Position) (m : Mode) (pending : List Key) :
    kind.apply pl d targets ofSelection (s.withView sels shown m pending) =
      .ok () (t.withPending pending) := by
  rcases (apply_endAlike_withView hne hdoc sels shown m pending).cases with
    ⟨_, t₁, t', hrun₁, hrun', rfl⟩ | ⟨c, t₁, t', hrun₁, -⟩
  · cases hrun.symm.trans hrun₁
    exact hrun'
  · cases hrun.symm.trans hrun₁

end OperatorKind

/-! ### Other selections of the same ranges -/

namespace Step

variable {f : Selection → Selection} (settings : Settings) (kind : OperatorKind)
  (shown : Option Position) (pending : List Key)

/-- **An operator asks only for the ranges of the selections.** -/
theorem operate_withView
    (hrange : ∀ sel ∈ s.selections, (f sel).range = sel.range) :
    operate settings d kind (s.withView (s.selections.map f) shown s.mode pending) =
      kind.apply settings.placement d (s.selectedTargets d kind) true
        (s.withView (s.selections.map f) shown s.mode pending) := by
  let t := s.withView (s.selections.map f) shown s.mode pending
  have htargets : t.selectedTargets d kind =
      s.selections.map fun sel => (f sel, some (s.selectedRange d (kind != .change) sel)) := by
    change (s.selections.map f).map _ = _
    rw [List.map_map]
    refine List.map_congr_left fun sel hsel => ?_
    have hsame : s.selectedRange d (kind != .change) (f sel) =
        s.selectedRange d (kind != .change) sel := State.selectedRange_congr (hrange sel hsel)
    exact congrArg (fun r => (f sel, some r)) hsame
  rw [operate, get_bind, htargets]
  refine congrFun (OperatorKind.apply_eq_of_ranges kind _ d fun _ _ => ?_) t
  rfl

/-- On other selections of the same ranges an operator ends alike. -/
theorem operate_endAlike (hne : s.selections ≠ []) (hdoc : s.editor.document = some d)
    (hrange : ∀ sel ∈ s.selections, (f sel).range = sel.range) :
    EndAlike (operate settings d kind) (operate settings d kind) s
      (s.withView (s.selections.map f) shown s.mode pending)
      (fun _ t t' => t' = t.withPending pending) fun _ _ => True := by
  have htargets : s.selectedTargets d kind ≠ [] := by simpa [State.selectedTargets] using hne
  unfold EndAlike
  rw [operate_withView settings kind shown pending hrange]
  exact OperatorKind.apply_endAlike_withView htargets hdoc _ shown s.mode pending

end Step

end ModalEdit
