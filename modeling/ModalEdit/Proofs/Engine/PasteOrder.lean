import Mathlib.Data.List.Perm.Basic
import ModalEdit.Proofs.Command.Paste
import ModalEdit.Proofs.Engine.RoundTrip
import ModalEdit.Proofs.TwoRuns

/-!
# Pasting and the order of the cursors

A paste in Normal mode puts the entry of every cursor in before a character and takes nothing away,
so it always runs (`Step.ends_paste_inserted`). Whatever order the cursors are kept in, each has the
same entry and the batch of the paste holds the same edits (`State.pasteEdits_cases`). They come in
the order of the cursors, though, so two cursors whose entries go in at one place put them there in
their own order. `Engine.handleKey_paste_perm_iff` says when that shows.
-/

namespace ModalEdit

variable {d : Document} {s : State}

namespace State

/-- **The order of the cursors is only the order of the edits**: there is one edit for each cursor,
whatever their order, or none at all. -/
theorem pasteEdits_cases (hstarts : s.selections.Pairwise fun a b => a.start ≠ b.start)
    (d : Document) (after : Bool) :
    (∀ l, (s.withSelections l).pasteEdits d after = []) ∨
      ∃ f, ∀ l, l.Perm s.selections → (s.withSelections l).pasteEdits d after = l.map f := by
  by_cases hne : s.session.registers.entries = []
  · refine .inl fun l => ?_
    have hempty : (s.withSelections l).pasteEntries = [] := pasteEntries_of_empty hne
    rw [pasteEdits, hempty, List.zipWith_nil_right]
  · obtain ⟨entry, hentry⟩ := Registers.exists_entryFor hne s.selections
    refine .inr ⟨fun sel => pasteEdit d after sel (entry sel), fun l hl => ?_⟩
    refine pasteEdits_of_entryFor (s := s.withSelections l) hne
      ((hl.pairwise_iff fun h => Ne.symm h).2 hstarts) fun sel hsel => ?_
    rw [← hentry sel (hl.mem_iff.1 hsel), ← Registers.entryFor_of_perm hl]
    rfl

end State

namespace Engine

variable {e : Engine} {ed : Editor} {after : Bool}

/-- The batch of the key that pastes, with the selections in the given order. -/
def pasteBatch (e : Engine) (ed : Editor) (d : Document) (after : Bool) (sels : List Selection) :
    List Edit :=
  ((e.state ed).syncRegisters.withSelections sels).pasteEdits d after

/-- The key that pastes, with the selections in the given order. -/
theorem handleKey_pasted (he : e.InNormalMode ed d) (hpending : e.session.pending = [])
    (hreadonly : ed.readonly = false) (after : Bool) (sels : List Selection) :
    let pasted := e.handleKey { ed with selections := sels } (pasteKey after)
    pasted.1 = .executed (pasteName after) ∧
      pasted.2.2.document = some (.ofText (d.inserted (e.pasteBatch ed d after sels))) := by
  have he' : e.InNormalMode { ed with selections := sels } d := ⟨he.keymap, he.mode, he.document⟩
  obtain ⟨s', hpasted, hkey⟩ := handleKey_pasteKey he' hpending
    (Step.ends_paste_inserted (s := (e.state ed).withSelections sels) e.settings.placement after
      he.document hreadonly)
  rw [State.syncRegisters_withSelections] at hpasted
  rw [hkey]
  exact ⟨rfl, hpasted⟩

theorem start_ne_of_cursors {sels : List Selection} (hcursors : ∀ sel ∈ sels, sel.isEmpty)
    (hnodup : sels.Nodup) : sels.Pairwise fun a b => a.start ≠ b.start := by
  refine hnodup.imp_of_mem fun {a b} ha hb hne hstart => hne ?_
  have hactive : a.active = b.active := by
    rw [← Selection.start_of_isEmpty (hcursors a ha), hstart,
      Selection.start_of_isEmpty (hcursors b hb)]
  rw [Selection.eq_cursor (hcursors a ha), hactive, ← Selection.eq_cursor (hcursors b hb)]

/-- The batch, one case for all orders: a paste that has nothing to put in has the empty batch in
every order, any other has one edit for each selection. -/
theorem pasteBatch_cases (e : Engine) (ed : Editor) (d : Document) (after : Bool)
    (hcursors : ∀ sel ∈ ed.selections, sel.isEmpty) (hnodup : ed.selections.Nodup) :
    (∀ sels, e.pasteBatch ed d after sels = []) ∨
      ∃ f : Selection → Edit, ∀ sels, sels.Perm ed.selections →
        e.pasteBatch ed d after sels = sels.map f := by
  have hselections : (e.state ed).syncRegisters.selections = ed.selections :=
    State.selections_syncRegisters _
  have hcases := State.pasteEdits_cases
    (hselections ▸ start_ne_of_cursors hcursors hnodup) d after
  rwa [hselections] at hcases

theorem pasteBatch_perm (hcursors : ∀ sel ∈ ed.selections, sel.isEmpty)
    (hnodup : ed.selections.Nodup) {sels : List Selection} (hperm : sels.Perm ed.selections) :
    (e.pasteBatch ed d after sels).Perm (e.pasteBatch ed d after ed.selections) := by
  rcases e.pasteBatch_cases ed d after hcursors hnodup with hnone | ⟨f, hbatch⟩
  · rw [hnone, hnone]
  · rw [hbatch sels hperm, hbatch _ (.refl _)]
    exact hperm.map f

/-- Every order of the batch is the batch of an order of the cursors. -/
theorem exists_pasteBatch_eq (hcursors : ∀ sel ∈ ed.selections, sel.isEmpty)
    (hnodup : ed.selections.Nodup) {edits : List Edit}
    (hperm : edits.Perm (e.pasteBatch ed d after ed.selections)) :
    ∃ sels, sels.Perm ed.selections ∧ e.pasteBatch ed d after sels = edits := by
  rcases e.pasteBatch_cases ed d after hcursors hnodup with hnone | ⟨f, hbatch⟩
  · rw [hnone] at hperm
    exact ⟨ed.selections, .refl _, by rw [hnone, hperm.eq_nil]⟩
  · rw [hbatch _ (.refl _)] at hperm
    obtain ⟨sels, rfl, hsels⟩ :=
      (iff_of_eq (congrFun₂ (List.eq_map_comp_perm f) edits ed.selections)).2 hperm
    exact ⟨sels, hsels, hbatch sels hsels⟩

/-- **When a paste depends on the order of the cursors.** The key that pastes in Normal mode runs
for every order of the cursors and puts in the same edits, and all orders lead to the same document
if and only if any two edits at one place give the same text in either order. -/
theorem handleKey_paste_perm_iff (e : Engine) (ed : Editor) (d : Document) (after : Bool)
    (hkeymap : e.keymap = .builtin) (hmode : e.session.mode = .normal)
    (hpending : e.session.pending = []) (hdoc : ed.document = some d)
    (hreadonly : ed.readonly = false) (hcursors : ∀ sel ∈ ed.selections, sel.isEmpty)
    (hnodup : ed.selections.Nodup) :
    let pasted (sels : List Selection) :=
      e.handleKey { ed with selections := sels } (pasteKey after)
    (∀ sels, sels.Perm ed.selections → (pasted sels).1 = .executed (pasteName after) ∧
      (e.pasteBatch ed d after sels).Perm (e.pasteBatch ed d after ed.selections) ∧
      (pasted sels).2.2.document =
        some (.ofText (d.inserted (e.pasteBatch ed d after sels)))) ∧
    ((∀ sels, sels.Perm ed.selections →
        (pasted sels).2.2.document = (pasted ed.selections).2.2.document) ↔
      (e.pasteBatch ed d after ed.selections).Pairwise d.Interchangeable) := by
  intro pasted
  have hpasted := handleKey_pasted ⟨hkeymap, hmode, hdoc⟩ hpending hreadonly after
  have hsame : ∀ sels, (pasted sels).2.2.document = (pasted ed.selections).2.2.document ↔
      d.inserted (e.pasteBatch ed d after sels) =
        d.inserted (e.pasteBatch ed d after ed.selections) := by
    intro sels
    rw [(hpasted sels).2, (hpasted ed.selections).2, Option.some.injEq]
    exact ⟨fun h => congrArg Document.text h, fun h => congrArg Document.ofText h⟩
  refine ⟨fun sels hperm => ⟨(hpasted sels).1, pasteBatch_perm hcursors hnodup hperm,
    (hpasted sels).2⟩, ?_⟩
  rw [← Document.inserted_perm_iff]
  constructor
  · intro h edits hperm
    obtain ⟨sels, hsels, rfl⟩ := exists_pasteBatch_eq hcursors hnodup hperm
    exact (hsame sels).1 (h sels hsels)
  · intro h sels hperm
    rw [hsame]
    exact h _ (pasteBatch_perm hcursors hnodup hperm)

/-- Two cursors, the last one in the document first, with a character between the places where their
entries go in. -/
theorem handleKey_paste_perm_apart :
    let d := Document.ofText ['a', 'b']
    let ed : Editor := { document := some d, selections := [.cursor ⟨0, 1⟩, .cursor ⟨0, 0⟩] }
    let e : Engine := { session := { registers :=
      { entries := [.charwise ['x'], .charwise ['y']] } } }
    let pasted (sels : List Selection) := e.handleKey { ed with selections := sels } (.char 'p')
    (∀ sel ∈ ed.selections, sel.isEmpty) ∧ ed.selections.Nodup ∧
      ∀ sels, sels.Perm ed.selections →
        (pasted sels).2.2.document = (pasted ed.selections).2.2.document := by
  intro d ed e pasted
  have hcursors : ∀ sel ∈ ed.selections, sel.isEmpty := by decide
  have hnodup : ed.selections.Nodup := by decide
  let entry (sel : Selection) : RegisterEntry :=
    if sel = .cursor ⟨0, 0⟩ then .charwise ['x'] else .charwise ['y']
  have hbatch : e.pasteBatch ed d true ed.selections =
      ed.selections.map fun sel => pasteEdit d true sel (entry sel) :=
    State.pasteEdits_of_entryFor (by decide) (by decide) (by decide)
  have hapart : (e.pasteBatch ed d true ed.selections).Pairwise d.Interchangeable := by
    rw [hbatch]
    refine List.pairwise_pair.2 fun hplace => ?_
    exact absurd hplace (by decide)
  exact ⟨hcursors, hnodup,
    (handleKey_paste_perm_iff e ed d true rfl rfl rfl rfl rfl hcursors hnodup).2.2 hapart⟩

/-- **Two cursors on either side of the only character** paste behind it in their own order. -/
theorem not_handleKey_paste_perm :
    let d := Document.ofText ['a']
    let ed : Editor := { document := some d, selections := [.cursor ⟨0, 1⟩, .cursor ⟨0, 0⟩] }
    let e : Engine := { session := { registers :=
      { entries := [.charwise ['x'], .charwise ['y']] } } }
    let pasted (sels : List Selection) := e.handleKey { ed with selections := sels } (.char 'p')
    ed.selections.Nodup ∧ (∀ sel ∈ ed.selections, sel.isEmpty ∧ d.InBounds sel.active) ∧
      (pasted [.cursor ⟨0, 1⟩, .cursor ⟨0, 0⟩]).2.2.text = ['a', 'y', 'x'] ∧
      (pasted [.cursor ⟨0, 0⟩, .cursor ⟨0, 1⟩]).2.2.text = ['a', 'x', 'y'] := by
  intro d ed e pasted
  let entry (sel : Selection) : RegisterEntry :=
    if sel = .cursor ⟨0, 0⟩ then .charwise ['x'] else .charwise ['y']
  have htext : ∀ sels, e.pasteBatch ed d true sels =
      sels.map (fun sel => pasteEdit d true sel (entry sel)) →
      (pasted sels).2.2.text =
        d.inserted (sels.map fun sel => pasteEdit d true sel (entry sel)) := by
    intro sels hbatch
    have hdoc : (pasted sels).2.2.document =
        some (.ofText (d.inserted (e.pasteBatch ed d true sels))) :=
      (handleKey_pasted ⟨rfl, rfl, rfl⟩ rfl rfl true sels).2
    rw [hbatch] at hdoc
    exact congrArg (fun doc => (doc.map Document.text).getD []) hdoc
  refine ⟨by decide, by decide, ?_, ?_⟩
  · rw [htext _ (State.pasteEdits_of_entryFor (by decide) (by decide) (by decide))]
    decide
  · rw [htext _ (State.pasteEdits_of_entryFor (by decide) (by decide) (by decide))]
    decide

end Engine

end ModalEdit
