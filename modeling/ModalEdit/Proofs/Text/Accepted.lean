import ModalEdit.Proofs.Text.Plan

/-!
# The order of a batch

Sorted by where they start, the edits of a batch are only compared with their neighbours. For edits
that start at different offsets that is enough to find every overlap, in whatever order the batch
lists them. Edits that start at the same offset are compared in the order of the batch, and there
the comparison is not symmetric: text put in where a piece begins lies before that piece, but listed
behind it, it is taken to lie inside (`Document.exists_plan_iff`).

`Document.edit_accepts_iff` puts this together: every legal batch is accepted in some order, namely
with its insertions first, but not in every order.
-/

namespace ModalEdit

/-- `f` puts in text where the piece begins that `e` replaces. -/
def Document.InsertsAtStart (d : Document) (e f : Edit) : Prop :=
  d.offsetOf f.range.start = d.offsetOf e.range.start ∧
    d.offsetOf f.range.stop = d.offsetOf f.range.start ∧
      d.offsetOf e.range.start < d.offsetOf e.range.stop

namespace Document

instance (d : Document) (r : Range) : Decidable (d.Fits r) :=
  decidable_of_iff (d.InBounds r.start ∧ d.InBounds r.stop ∧ r.start ≤ r.stop)
    ⟨fun h => ⟨h.1, h.2.1, h.2.2⟩, fun h => ⟨h.start, h.stop, h.le⟩⟩

instance (d : Document) (edits : List Edit) : Decidable (d.Legal edits) :=
  decidable_of_iff ((∀ e ∈ edits, d.Fits e.range) ∧
      edits.Pairwise fun e f => d.offsetOf e.range.stop ≤ d.offsetOf f.range.start ∨
        d.offsetOf f.range.stop ≤ d.offsetOf e.range.start)
    ⟨fun h => ⟨h.1, h.2⟩, fun h => ⟨h.fits, h.apart⟩⟩

instance (d : Document) (e f : Edit) : Decidable (d.InsertsAtStart e f) :=
  inferInstanceAs (Decidable (_ ∧ _ ∧ _))

variable {d : Document} {edits edits' : List Edit}

/-! ### One order -/

/-- `e` comes before `f` in a plan. -/
def Precedes (e f : OffsetEdit) : Prop := e.start < f.start ∨ e.start = f.start ∧ e.index < f.index

/-- The later of two edits in a plan begins where the earlier one has ended. -/
def InTurn (e f : OffsetEdit) : Prop :=
  (Precedes e f → e.stop ≤ f.start) ∧ (Precedes f e → f.stop ≤ e.start)

/-- Neighbours are enough: a batch passes if and only if any two of its edits are in turn. -/
theorem isChain_inOrder_iff (hfits : ∀ e ∈ edits, d.Fits e.range) :
    ((d.inOrder edits).IsChain fun e f => e.stop ≤ f.start) ↔
      (d.offsetEdits 0 edits).Pairwise InTurn := by
  have hle : ∀ e ∈ d.inOrder edits, e.start ≤ e.stop := fun e he =>
    (offsetEdit_bounds hfits (List.mem_mergeSort.1 he)).1
  have hordered : (d.inOrder edits).Pairwise Precedes :=
    ordered_mergeSort (pairwise_index_offsetEdits edits)
  have hsymm : ∀ e f, InTurn e f → InTurn f e := fun _ _ => And.symm
  rw [isChain_iff_pairwise hle, ← (List.mergeSort_perm _ _).pairwise_iff (hsymm _ _)]
  change _ ↔ (d.inOrder edits).Pairwise InTurn
  constructor
  · intro h
    refine (hordered.and h).imp fun {e f} ⟨hbefore, hstop⟩ => ⟨fun _ => hstop, fun hbehind => ?_⟩
    unfold Precedes at hbefore hbehind
    omega
  · intro h
    exact (hordered.and h).imp fun {e f} ⟨hbefore, hturn⟩ => hturn.1 hbefore

/-- Of two edits with the first one listed in front, both are in turn if and only if they do not
overlap and the second one does not put in text where the piece of the first one begins. -/
theorem pairwise_inTurn_iff (hfits : ∀ e ∈ edits, d.Fits e.range) :
    (d.offsetEdits 0 edits).Pairwise InTurn ↔
      (edits.Pairwise fun e f => d.offsetOf e.range.stop ≤ d.offsetOf f.range.start ∨
        d.offsetOf f.range.stop ≤ d.offsetOf e.range.start) ∧
      edits.Pairwise fun e f => ¬ d.InsertsAtStart e f := by
  have hnumbered := pairwise_index_offsetEdits (d := d) edits
  have hle : ∀ e ∈ d.offsetEdits 0 edits, e.start ≤ e.stop := fun e he =>
    (offsetEdit_bounds hfits he).1
  let Listed (e f : Nat × Nat) : Prop :=
    (e.2 ≤ f.1 ∨ f.2 ≤ e.1) ∧ ¬ (f.1 = e.1 ∧ f.2 = f.1 ∧ e.1 < e.2)
  have hturn : ∀ e ∈ d.offsetEdits 0 edits, ∀ f ∈ d.offsetEdits 0 edits, e.index < f.index →
      (InTurn e f ↔ Listed (e.start, e.stop) (f.start, f.stop)) := by
    intro e he f hf hindex
    have := hle e he
    have := hle f hf
    simp only [InTurn, Precedes, Listed]
    omega
  rw [← List.pairwise_and_iff]
  calc (d.offsetEdits 0 edits).Pairwise InTurn
      ↔ (d.offsetEdits 0 edits).Pairwise fun e f => Listed (e.start, e.stop) (f.start, f.stop) :=
        ⟨fun h => (hnumbered.and h).imp_of_mem fun he hf hef => (hturn _ he _ hf hef.1).1 hef.2,
          fun h => (hnumbered.and h).imp_of_mem fun he hf hef => (hturn _ he _ hf hef.1).2 hef.2⟩
    _ ↔ _ := pairwise_offsetEdits Listed 0 edits

/-- **Which batches are accepted in the order in which they are listed**: the legal ones that put in
no text where a piece begins behind the edit that replaces it. -/
theorem exists_plan_iff (hle : ∀ e ∈ edits, e.range.start ≤ e.range.stop) :
    (∃ plan, d.plan edits = .ok plan) ↔
      d.Legal edits ∧ edits.Pairwise fun e f => ¬ d.InsertsAtStart e f := by
  constructor
  · rintro ⟨plan, hplan⟩
    obtain ⟨hin, hchain, -⟩ := plan_eq_ok_iff.1 hplan
    have hfits : ∀ e ∈ edits, d.Fits e.range := fun e he => ⟨(hin e he).1, (hin e he).2, hle e he⟩
    obtain ⟨hapart, hlate⟩ := (pairwise_inTurn_iff hfits).1 ((isChain_inOrder_iff hfits).1 hchain)
    exact ⟨⟨hfits, hapart⟩, hlate⟩
  · rintro ⟨hlegal, hlate⟩
    have hin : ∀ e ∈ edits, d.InBounds e.range.start ∧ d.InBounds e.range.stop := fun e he =>
      ⟨(hlegal.fits e he).start, (hlegal.fits e he).stop⟩
    have hturn := (pairwise_inTurn_iff hlegal.fits).2 ⟨hlegal.apart, hlate⟩
    exact ⟨_, plan_eq_ok_iff.2 ⟨hin, (isChain_inOrder_iff hlegal.fits).2 hturn, rfl⟩⟩

theorem exists_edit_iff : (∃ r, d.edit edits = .ok r) ↔ ∃ plan, d.plan edits = .ok plan := by
  constructor
  · rintro ⟨⟨after, plan⟩, h⟩
    exact ⟨plan, (edit_eq_ok_iff.1 h).1⟩
  · rintro ⟨plan, h⟩
    exact ⟨_, edit_eq_ok_iff.2 ⟨h, rfl⟩⟩

/-- **Pieces that hold something and do not overlap** can be replaced, listed in any order. -/
theorem exists_edit_of_pieces (hlegal : d.Legal edits)
    (hheld : ∀ e ∈ edits, d.offsetOf e.range.start < d.offsetOf e.range.stop) :
    ∃ after plan, d.edit edits = .ok (after, plan) := by
  have hlate : edits.Pairwise fun e f => ¬ d.InsertsAtStart e f := by
    refine List.pairwise_of_forall_mem_list ?_
    rintro e - f hf ⟨-, hempty, -⟩
    exact Nat.ne_of_gt (hheld f hf) hempty
  obtain ⟨⟨after, plan⟩, hedit⟩ := exists_edit_iff.2
    ((exists_plan_iff fun e he => (hlegal.fits e he).le).2 ⟨hlegal, hlate⟩)
  exact ⟨after, plan, hedit⟩

/-! ### All orders -/

/-- Whether a batch is legal does not depend on its order. -/
theorem Legal.perm (h : d.Legal edits) (hperm : edits'.Perm edits) : d.Legal edits' where
  fits e he := h.fits e (hperm.mem_iff.1 he)
  apart := (hperm.pairwise_iff fun h => h.symm).2 h.apart

/-- Any edit of a batch can be listed right in front of any other. -/
theorem exists_perm_cons_cons {e f : Edit} (he : e ∈ edits) (hf : f ∈ edits) (hne : f ≠ e) :
    ∃ rest, (e :: f :: rest).Perm edits :=
  ⟨(edits.erase e).erase f, ((List.perm_cons_erase ((List.mem_erase_of_ne hne).2 hf)).symm.cons e
    |>.trans (List.perm_cons_erase he).symm)⟩

/-- The edits that only put text in. -/
def insertions (d : Document) (edits : List Edit) : List Edit :=
  edits.filter fun e => d.offsetOf e.range.stop == d.offsetOf e.range.start

/-- The edits that replace something. -/
def replacements (d : Document) (edits : List Edit) : List Edit :=
  edits.filter fun e => !(d.offsetOf e.range.stop == d.offsetOf e.range.start)

theorem insertions_append_replacements_perm (d : Document) (edits : List Edit) :
    (d.insertions edits ++ d.replacements edits).Perm edits :=
  List.filter_append_perm _ edits

/-- Behind no edit that replaces something there is then one that puts text in. -/
theorem pairwise_insertions_append_replacements (d : Document) (edits : List Edit) :
    (d.insertions edits ++ d.replacements edits).Pairwise fun e f => ¬ d.InsertsAtStart e f := by
  have hinsertion : ∀ e ∈ d.insertions edits, ∀ f, ¬ d.InsertsAtStart e f := by
    rintro e he f ⟨-, -, hlt⟩
    have hempty := (List.mem_filter.1 he).2
    simp only [beq_iff_eq] at hempty
    omega
  have hreplacement : ∀ f ∈ d.replacements edits, ∀ e, ¬ d.InsertsAtStart e f := by
    rintro f hf e ⟨-, hempty, -⟩
    have hne := (List.mem_filter.1 hf).2
    simp [hempty] at hne
  refine List.pairwise_append.2 ⟨?_, ?_, fun e he f _ => hinsertion e he f⟩
  · exact List.pairwise_of_forall_mem_list fun e he f _ => hinsertion e he f
  · exact List.pairwise_of_forall_mem_list fun e _ f hf => hreplacement f hf e

/-- **Which batches are accepted**, the ranges running forward. As it is listed, a batch is accepted
if and only if it is legal and lists no insertion behind an edit that replaces something from the
same offset. It is accepted in every order if and only if it is legal and has no such pair of edits
at all, and in some order if and only if it is legal. -/
theorem edit_accepts_iff (hle : ∀ e ∈ edits, e.range.start ≤ e.range.stop) :
    ((∃ r, d.edit edits = .ok r) ↔
      d.Legal edits ∧ edits.Pairwise fun e f => ¬ d.InsertsAtStart e f) ∧
    ((∀ edits', edits'.Perm edits → ∃ r, d.edit edits' = .ok r) ↔
      d.Legal edits ∧ ∀ e ∈ edits, ∀ f ∈ edits, ¬ d.InsertsAtStart e f) ∧
    ((∃ edits', edits'.Perm edits ∧ ∃ r, d.edit edits' = .ok r) ↔ d.Legal edits) := by
  have hlisted {edits' : List Edit} (hperm : edits'.Perm edits) : (∃ r, d.edit edits' = .ok r) ↔
      d.Legal edits' ∧ edits'.Pairwise fun e f => ¬ d.InsertsAtStart e f :=
    exists_edit_iff.trans (exists_plan_iff fun e he => hle e (hperm.mem_iff.1 he))
  refine ⟨hlisted (.refl edits), ⟨fun h => ?_, fun ⟨hlegal, hnone⟩ edits' hperm => ?_⟩,
    ⟨fun ⟨edits', hperm, h⟩ => ?_, fun hlegal => ?_⟩⟩
  · refine ⟨((hlisted (.refl edits)).1 (h edits (.refl edits))).1, fun e he f hf hstart => ?_⟩
    have hne : f ≠ e := by
      rintro rfl
      exact absurd hstart.2.1 (Nat.ne_of_gt hstart.2.2)
    obtain ⟨rest, hperm⟩ := exists_perm_cons_cons he hf hne
    have hlate := ((hlisted hperm).1 (h _ hperm)).2
    exact (List.pairwise_cons.1 hlate).1 f List.mem_cons_self hstart
  · refine (hlisted hperm).2 ⟨hlegal.perm hperm, List.pairwise_of_forall_mem_list ?_⟩
    exact fun e he f hf => hnone e (hperm.mem_iff.1 he) f (hperm.mem_iff.1 hf)
  · exact ((hlisted hperm).1 h).1.perm hperm.symm
  · have hperm := insertions_append_replacements_perm d edits
    exact ⟨_, hperm, (hlisted hperm).2 ⟨hlegal.perm hperm,
      pairwise_insertions_append_replacements d edits⟩⟩

/-- Text put in where a piece begins, listed in front of the edit that takes the piece out. -/
theorem edit_accepts_insertion_first :
    let d := ofText ['a', 'b', 'c']
    let edits : List Edit := [.insert ⟨0, 1⟩ ['X'], .delete ⟨⟨0, 1⟩, ⟨0, 3⟩, none⟩]
    (∀ e ∈ edits, e.range.start ≤ e.range.stop) ∧ (∃ r, d.edit edits = .ok r) ∧
      ¬ ∀ edits', edits'.Perm edits → ∃ r, d.edit edits' = .ok r := by
  intro d edits
  have hle : ∀ e ∈ edits, e.range.start ≤ e.range.stop := by decide
  obtain ⟨hlisted, hall, -⟩ := edit_accepts_iff (d := d) hle
  refine ⟨hle, hlisted.2 (by decide), fun h => ?_⟩
  have hnone : ¬ ∀ e ∈ edits, ∀ f ∈ edits, ¬ d.InsertsAtStart e f := by decide
  exact hnone (hall.1 h).2

/-- **Not every legal batch is accepted.** Nothing is taken out where the text is put in, but listed
behind the deletion the insertion is taken to overlap it. In the other order both are made. -/
theorem not_edit_of_legal :
    let d := ofText ['a', 'b', 'c']
    let insertion : Edit := .insert ⟨0, 1⟩ ['X']
    let deletion : Edit := .delete ⟨⟨0, 1⟩, ⟨0, 3⟩, none⟩
    d.Legal [deletion, insertion] ∧ d.edit [deletion, insertion] = .error (.overlap 1) ∧
      d.edit [insertion, deletion] =
        .ok (ofText ['a', 'X'], ⟨[⟨1, 1, ['X'], 0⟩, ⟨1, 3, [], 1⟩]⟩) := by
  intro d insertion deletion
  have hbehind : d.inOrder [deletion, insertion] = [⟨1, 3, [], 0⟩, ⟨1, 1, ['X'], 1⟩] :=
    inOrder_eq_of_perm (by decide) (by decide)
  have hfront : d.inOrder [insertion, deletion] = [⟨1, 1, ['X'], 0⟩, ⟨1, 3, [], 1⟩] :=
    inOrder_eq_of_perm (by decide) (by decide)
  refine ⟨by decide, ?_, ?_⟩
  · rw [edit_eq_error_iff, plan_of_inBounds (by decide), hbehind]
    rfl
  · refine edit_eq_ok_iff.2 ⟨?_, by rfl⟩
    rw [plan_of_inBounds (by decide), hfront]
    rfl

end Document

end ModalEdit
