import ModalEdit.Proofs.Engine.Dispatch
import ModalEdit.Proofs.Operator.Ranges
import ModalEdit.Proofs.Operator.Removal

/-!
# Operators on several cursors

The keys of an operator that removes text reach the operator, because every built-in action before
it spares them. So what the merged ranges of the cursors are like decides what becomes of the key.
-/

namespace ModalEdit

variable {d : Document} {kind : OperatorKind}

/-! ### What becomes of the key -/

variable {found : List (Selection × Option ObjectRange)}

/-- The operator runs if and only if there is no clash, and else it fails because edits overlap and
changes nothing. -/
theorem OperatorKind.ends_compose (hd : d.LineFeedsOnly) (hkind : kind ≠ .yank) {s : State}
    (hdoc : s.editor.document = some d) (hreadonly : s.editor.readonly = false)
    (settings : Settings) {keys : List Key}
    (hfound : (TextObject.wholeLine kind :: TextObject.defaults).findSome?
      (targetsOf d ⟨some kind, s.session.lastFind⟩ s.selections keys) = some found) :
    (kind.compose settings d keys).Ends s
      (fun r _ => r = .executed ∧ ∀ c, ¬ d.Clash (rangesOf found) c)
      fun e s' => s' = s ∧ (∃ o, e = .edit (.overlap o)) ∧ ∃ c, d.Clash (rangesOf found) c := by
  obtain ⟨o, -, ho⟩ := List.exists_of_findSome?_eq_some hfound
  simp only [compose, Step.ends_bind, Step.ends_get, hfound, Step.ends_modify, Step.ends_pure]
  have happly := (regular_of_targetsOf ho).ends_apply hd hkind settings.placement
    (filterMap_targets found) false hdoc hreadonly
  exact happly.mono (fun _ _ h => ⟨trivial, h⟩) fun _ _ h => h

namespace Engine

/-- **An operator is aborted if and only if there is a clash.** -/
theorem aborted_iff_clash (hd : d.LineFeedsOnly) (hkind : kind ≠ .yank) {e : Engine} {ed : Editor}
    (hkeymap : e.keymap = .builtin) (hmode : e.session.mode = .normal)
    (hdoc : ed.document = some d) (hreadonly : ed.readonly = false) (typed : List Key) (key : Key)
    (hpending : e.session.pending = kind.key :: typed)
    (hfound : (TextObject.wholeLine kind :: TextObject.defaults).findSome?
      (OperatorKind.targetsOf d ⟨some kind, e.session.lastFind⟩ ed.selections (typed ++ [key])) =
        some found) :
    (e.handleKey ed key).1 = .aborted ↔ ∃ c, d.Clash (OperatorKind.rangesOf found) c := by
  have hcompose := OperatorKind.ends_compose hd hkind (s := ⟨ed, e.session⟩) hdoc hreadonly
    e.settings hfound
  have hanswer : ((Action.operator kind).answer e.settings (kind.key :: (typed ++ [key]))).Ends
      ⟨ed, e.session⟩ (fun r _ => r = .executed ∧ ∀ c, ¬ d.Clash (OperatorKind.rangesOf found) c)
      fun _ _ => ∃ c, d.Clash (OperatorKind.rangesOf found) c := by
    have hkeys : (typed ++ [key]).isEmpty = false := by simp
    simp only [Action.answer, Pattern.parseLiteral, hkeys, Bool.false_eq_true, ↓reduceIte]
    refine Step.ends_withDocument.2 ⟨fun d' hd' => ?_, fun hnone => ?_⟩
    · obtain rfl : d = d' := Option.some.inj (hdoc.symm.trans hd')
      exact hcompose.mono (fun _ _ h => h) fun _ _ h => h.2.2
    · rw [hdoc] at hnone
      cases hnone
  have howns := Keymap.owns_operator kind
  have hoffer := Keymap.ends_offer (Keymap.forMode (Motion.defaults.map .motion) .normal)
    (fun b hb => (howns.eq_or_spares b hb).imp_right fun h => h _ _ _) howns.mem false
    (Q := fun o _ => (∃ name, o = .executed name) ∧ ∀ c, ¬ d.Clash (OperatorKind.rangesOf found) c)
    (hanswer.mono (fun _ _ h => ⟨h.1, ⟨_, rfl⟩, h.2⟩) fun _ _ h => h)
  have hsome : ed.document.isNone = false := by rw [hdoc]; rfl
  simp only [handleKey, hsome, hkeymap, hmode, hpending, Bool.false_eq_true, ↓reduceIte,
    Keymap.forMode_builtin, List.cons_append]
  cases h : ((Keymap.beforeMotions.forMode .normal ++
      Keymap.forMode (Motion.defaults.map .motion) .normal).offer e.settings
      (kind.key :: (typed ++ [key])) false ⟨ed, e.session⟩ : EStateM.Result _ _ _) with
  | ok o s' =>
    obtain ⟨⟨name, rfl⟩, hno⟩ := hoffer.of_ok h
    constructor
    · intro haborted
      cases haborted
    · rintro ⟨c, hc⟩
      exact absurd hc (hno c)
  | error c s' => exact ⟨fun _ => hoffer.of_error h, fun _ => rfl⟩

end Engine

namespace OperatorKind

/-- **What becomes of the ranges that an operator removes**, for any number of cursors and any text
object, in a text whose only breaks are line feeds. Merged, they are sorted and cover all ranges
found. They do not overlap, the batch of deletions is accepted, the operator removes them, and the
key that completes the object is not aborted, each of these if and only if there is no clash. -/
theorem removes_iff_no_clash (kind : OperatorKind) (d : Document) (sels : List Selection)
    (lastFind : Option Find) (keys : List Key) (o : TextObject)
    (found : List (Selection × Option ObjectRange)) (hkind : kind ≠ .yank) (hd : d.LineFeedsOnly)
    (hfound : targetsOf d ⟨some kind, lastFind⟩ sels keys o = some found) :
    let rs := rangesOf found
    let merged := d.mergeRanges rs
    (merged.Pairwise fun q q' => d.offsetOf q.start ≤ d.offsetOf q'.start) ∧
    (∀ r ∈ rs, ∃ q ∈ merged, d.offsetOf q.start ≤ d.offsetOf r.start ∧
      d.offsetOf r.stop ≤ d.offsetOf q.stop) ∧
    ((merged.Pairwise fun q q' => d.offsetOf q.stop ≤ d.offsetOf q'.start) ↔
      ∀ c, ¬ d.Clash rs c) ∧
    ((∃ plan, d.plan (deletions merged) = .ok plan) ↔ ∀ c, ¬ d.Clash rs c) ∧
    (∀ (pl : Placement) (targets : List Target) (s : State), targets.filterMap (·.2) = rs →
      s.editor.document = some d → s.editor.readonly = false →
      (kind.apply pl d targets false).Ends s (fun _ _ => ∀ c, ¬ d.Clash rs c)
        fun e s' => s' = s ∧ (∃ offset, e = .edit (.overlap offset)) ∧ ∃ c, d.Clash rs c) ∧
    ∀ (e : Engine) (ed : Editor) (typed : List Key) (key : Key), e.keymap = .builtin →
      e.session.mode = .normal → e.session.lastFind = lastFind → ed.document = some d →
      ed.selections = sels → ed.readonly = false → e.session.pending = kind.key :: typed →
      keys = typed ++ [key] →
      (TextObject.wholeLine kind :: TextObject.defaults).findSome?
        (targetsOf d ⟨some kind, lastFind⟩ sels keys) = some found →
      ((e.handleKey ed key).1 = .aborted ↔ ∃ c, d.Clash rs c) := by
  have hrs := regular_of_targetsOf hfound
  refine ⟨hrs.sorted, fun r hr => hrs.covers hr, hrs.apart_iff hd, hrs.accepts_iff hd, ?_, ?_⟩
  · intro pl targets s htargets hdoc hreadonly
    exact hrs.ends_apply hd hkind pl htargets false hdoc hreadonly
  · intro e ed typed key hkeymap hmode hfind hdoc hsels hreadonly hpending hkeys hfirst
    subst hfind hsels hkeys
    exact Engine.aborted_iff_clash hd hkind hkeymap hmode hdoc hreadonly typed key hpending hfirst

/-- Two cursors on the last two of three lines: the lines are merged to one range, and the key is
not aborted. -/
theorem removes_last_two_lines :
    let d := Document.ofText ['a', '\n', 'b', '\n', 'c']
    let ed := Editor.ofDocument d [⟨1, 0⟩, ⟨2, 0⟩]
    let found : List (Selection × Option ObjectRange) :=
      [(.cursor ⟨1, 0⟩, some { range := ⟨⟨1, 0⟩, ⟨2, 0⟩, some ⟨1, 1⟩⟩ }),
        (.cursor ⟨2, 0⟩, some { range := ⟨⟨1, 1⟩, ⟨2, 1⟩, some ⟨2, 2⟩⟩ })]
    delete ≠ yank ∧ d.LineFeedsOnly ∧
    targetsOf d ⟨some .delete, none⟩ ed.selections [.char 'd'] (.wholeLine .delete) = some found ∧
    d.mergeRanges (rangesOf found) = [⟨⟨0, 1⟩, ⟨2, 1⟩, some ⟨1, 2⟩⟩] ∧
    (∀ c, ¬ d.Clash (rangesOf found) c) ∧
    (({ session := { pending := [.char 'd'] } } : Engine).handleKey ed (.char 'd')).1 ≠
      .aborted := by
  intro d ed found
  have hfound : targetsOf d ⟨some .delete, none⟩ ed.selections [.char 'd'] (.wholeLine .delete) =
      some found := by rfl
  have hmerged : d.mergeRanges (rangesOf found) = [⟨⟨0, 1⟩, ⟨2, 1⟩, some ⟨1, 2⟩⟩] := by
    rw [Document.mergeRanges, List.mergeSort_of_pairwise (by decide)]
    rfl
  obtain ⟨-, -, hapart, -, -, haborted⟩ := removes_iff_no_clash .delete d ed.selections none
    [.char 'd'] (.wholeLine .delete) found (by decide) (by decide) hfound
  have hno : ∀ c, ¬ d.Clash (rangesOf found) c := by
    refine hapart.1 ?_
    rw [hmerged]
    exact List.pairwise_singleton _ _
  refine ⟨by decide, by decide, hfound, hmerged, hno, fun h => ?_⟩
  obtain ⟨c, hc⟩ := (haborted { session := { pending := [.char 'd'] } } ed [] (.char 'd') rfl rfl
    rfl rfl rfl rfl rfl rfl (by rfl)).1 h
  exact hno c hc

/-- Three cursors on the only three lines. Two of the merged ranges share a line break, and the
operator that deletes the lines is aborted. -/
theorem not_removes_three_lines :
    let d := Document.ofText ['a', '\n', 'b', '\n', 'c']
    let ed := Editor.ofDocument d [⟨0, 0⟩, ⟨1, 0⟩, ⟨2, 0⟩]
    let found : List (Selection × Option ObjectRange) :=
      [(.cursor ⟨0, 0⟩, some { range := ⟨⟨0, 0⟩, ⟨1, 0⟩, some ⟨0, 0⟩⟩ }),
        (.cursor ⟨1, 0⟩, some { range := ⟨⟨1, 0⟩, ⟨2, 0⟩, some ⟨1, 1⟩⟩ }),
        (.cursor ⟨2, 0⟩, some { range := ⟨⟨1, 1⟩, ⟨2, 1⟩, some ⟨2, 2⟩⟩ })]
    d.LineFeedsOnly ∧
    targetsOf d ⟨some .delete, none⟩ ed.selections [.char 'd'] (.wholeLine .delete) = some found ∧
    d.mergeRanges (rangesOf found) =
      [⟨⟨0, 0⟩, ⟨1, 0⟩, some ⟨0, 0⟩⟩, ⟨⟨0, 1⟩, ⟨2, 1⟩, some ⟨1, 2⟩⟩] ∧
    d.plan (deletions (d.mergeRanges (rangesOf found))) = .error (.overlap 1) ∧
    (({} : Engine).handleKeys ed [.char 'd', .char 'd']).1 = [.pending, .aborted] := by
  intro d ed found
  have hmerged : d.mergeRanges (rangesOf found) =
      [⟨⟨0, 0⟩, ⟨1, 0⟩, some ⟨0, 0⟩⟩, ⟨⟨0, 1⟩, ⟨2, 1⟩, some ⟨1, 2⟩⟩] := by
    rw [Document.mergeRanges, List.mergeSort_of_pairwise (by decide)]
    rfl
  have hplan : d.plan (deletions (d.mergeRanges (rangesOf found))) = .error (.overlap 1) := by
    rw [hmerged, Document.plan, Document.resolveFrom_eq_ok_iff.2 ⟨by decide, rfl⟩]
    simp only [bind, Except.bind]
    rw [List.mergeSort_of_pairwise (by decide)]
    rfl
  refine ⟨by decide, by rfl, hmerged, hplan, ?_⟩
  -- The first key waits; at the second the deletions are not accepted, so there is a clash.
  let e : Engine := { session := { pending := [.char 'd'] } }
  have hfirst : ({} : Engine).handleKey ed (.char 'd') = (.pending, e, ed) := by rfl
  have hrs : d.Regular true (rangesOf found) :=
    regular_of_targetsOf (show targetsOf d ⟨some .delete, none⟩ ed.selections [.char 'd']
      (.wholeLine .delete) = some found by rfl)
  have hkind : delete ≠ yank := by decide
  have hsecond : (e.handleKey ed (.char 'd')).1 = .aborted :=
    (Engine.aborted_iff_clash (by decide) hkind rfl rfl rfl rfl [] (.char 'd') rfl (by rfl)).2
      (hrs.exists_clash_of_plan (by decide) hplan)
  simp only [Engine.handleKeys, hfirst, hsecond]

end OperatorKind

end ModalEdit
