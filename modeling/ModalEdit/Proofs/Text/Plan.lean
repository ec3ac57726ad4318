import Mathlib.Data.List.Chain
import Mathlib.Data.List.Nodup
import ModalEdit.Proofs.Text.Coordinates
import ModalEdit.Text.Edit

/-!
# Which batches are accepted

`Document.plan_eq_ok_iff` says when a batch of edits is accepted and what its plan is: every end of
every range is in bounds, and among the edits in document order each one ends before the next
begins. A batch of at most one edit in bounds always is (`Document.exists_plan_of_length_le_one`).

The plan is in document order, edits that start at the same offset in the order of the batch
(`Document.ordered_of_plan`). It knows every edit of its batch and finds it by its place there
(`Document.exists_placed_of_plan`).
-/

namespace ModalEdit

/-- Both ends of a range are in bounds and come in order. -/
structure Document.Fits (d : Document) (r : Range) : Prop where
  /-- The range begins in the document. -/
  start : d.InBounds r.start
  /-- The range ends in the document. -/
  stop : d.InBounds r.stop
  /-- The range does not end before it begins. -/
  le : r.start ≤ r.stop

/-- A batch that can be made: its ranges fit, and no two of them overlap. -/
structure Document.Legal (d : Document) (edits : List Edit) : Prop where
  /-- Every range fits. -/
  fits : ∀ e ∈ edits, d.Fits e.range
  /-- Of two ranges one ends before the other begins. -/
  apart : edits.Pairwise fun e f =>
    d.offsetOf e.range.stop ≤ d.offsetOf f.range.start ∨
      d.offsetOf f.range.stop ≤ d.offsetOf e.range.start

/-- What an edit replaces and what it puts there, whatever its place in the batch. -/
def OffsetEdit.parts (e : OffsetEdit) : Nat × Nat × Text := (e.start, e.stop, e.text)

theorem OffsetEdit.starts_trans (a b c : OffsetEdit) (h : decide (a.start ≤ b.start) = true)
    (h' : decide (b.start ≤ c.start) = true) : decide (a.start ≤ c.start) = true := by
  simp only [decide_eq_true_eq] at *
  omega

theorem OffsetEdit.starts_total (a b : OffsetEdit) :
    (decide (a.start ≤ b.start) || decide (b.start ≤ a.start)) = true := by
  simp only [Bool.or_eq_true, decide_eq_true_eq]
  omega

namespace Document

variable {d : Document}

theorem legal_nil : d.Legal [] := ⟨by simp, .nil⟩

theorem legal_singleton {e : Edit} (h : d.Fits e.range) : d.Legal [e] :=
  ⟨by simpa using h, List.pairwise_singleton _ _⟩

theorem legal_of_length_le_one {edits : List Edit} (h : ∀ e ∈ edits, d.Fits e.range)
    (hlen : edits.length ≤ 1) : d.Legal edits := by
  match edits, hlen with
  | [], _ => exact legal_nil
  | [e], _ => exact legal_singleton (h e (List.mem_singleton_self e))

theorem Fits.offsetOf_le {r : Range} (h : d.Fits r) : d.offsetOf r.start ≤ d.offsetOf r.stop :=
  offsetOf_mono h.start h.stop h.le

/-! ### The edits by offsets -/

/-- The edits of a batch by offsets, the first of which has place `k`. -/
def offsetEdits (d : Document) (k : Nat) : List Edit → List OffsetEdit
  | [] => []
  | e :: es =>
    ⟨d.offsetOf e.range.start, d.offsetOf e.range.stop, e.text, k⟩ :: d.offsetEdits (k + 1) es

theorem resolve_eq_ok_iff {e : Edit} {k : Nat} {r : OffsetEdit} :
    d.resolve e k = .ok r ↔ d.InBounds e.range.start ∧ d.InBounds e.range.stop ∧
      r = ⟨d.offsetOf e.range.start, d.offsetOf e.range.stop, e.text, k⟩ := by
  by_cases hs : d.InBounds e.range.start <;> by_cases ht : d.InBounds e.range.stop <;>
    simp [resolve, checkInBounds, hs, ht, bind, Except.bind, pure, Except.pure, eq_comm]

theorem resolveFrom_eq_ok_iff {edits : List Edit} {k : Nat} {es : List OffsetEdit} :
    d.resolveFrom k edits = .ok es ↔
      (∀ e ∈ edits, d.InBounds e.range.start ∧ d.InBounds e.range.stop) ∧
        es = d.offsetEdits k edits := by
  induction edits generalizing k es with
  | nil => simp [resolveFrom, offsetEdits, eq_comm]
  | cons e edits ih =>
    simp only [resolveFrom, List.forall_mem_cons, offsetEdits]
    cases he : d.resolve e k with
    | error c =>
      refine ⟨nofun, fun ⟨⟨h, _⟩, _⟩ => ?_⟩
      rw [resolve_eq_ok_iff.2 ⟨h.1, h.2, rfl⟩] at he
      cases he
    | ok r =>
      obtain ⟨hs, ht, rfl⟩ := resolve_eq_ok_iff.1 he
      cases hes : d.resolveFrom (k + 1) edits with
      | error c =>
        refine ⟨nofun, fun ⟨⟨_, h⟩, _⟩ => ?_⟩
        rw [ih.2 ⟨h, rfl⟩] at hes
        cases hes
      | ok rs =>
        obtain ⟨hrest, rfl⟩ := ih.1 hes
        refine ⟨fun h => ?_, fun ⟨_, h⟩ => h ▸ rfl⟩
        cases h
        exact ⟨⟨⟨hs, ht⟩, hrest⟩, rfl⟩

theorem firstOverlap_eq_none_iff {es : List OffsetEdit} :
    firstOverlap es = none ↔ es.IsChain fun e f => e.stop ≤ f.start := by
  fun_induction firstOverlap es with
  | case1 e f es h => simp [h]
  | case2 e f es h ih => simp [ih, Nat.le_of_not_lt h]
  | case3 es h =>
    match es with
    | [] => simp
    | [e] => simp
    | e :: f :: es => exact absurd rfl (h e f es)

/-- When no edit has a negative length it is enough to look at neighbours. -/
theorem isChain_iff_pairwise {es : List OffsetEdit} (hle : ∀ e ∈ es, e.start ≤ e.stop) :
    (es.IsChain fun e f => e.stop ≤ f.start) ↔ es.Pairwise fun e f => e.stop ≤ f.start := by
  refine ⟨fun h => ?_, List.Pairwise.isChain⟩
  induction es with
  | nil => exact .nil
  | cons e es ih =>
    obtain ⟨-, hle⟩ := List.forall_mem_cons.1 hle
    have hpairwise := ih hle h.tail
    refine List.pairwise_cons.2 ⟨fun g hg => ?_, hpairwise⟩
    match es, h with
    | f :: es, h =>
      have hfirst : e.stop ≤ f.start := h.rel
      rcases List.mem_cons.1 hg with rfl | hg
      · exact hfirst
      · -- The neighbour `f` lies between the two and does not end before it begins.
        have := (List.pairwise_cons.1 hpairwise).1 g hg
        have := hle f List.mem_cons_self
        omega

/-- The edits of a batch by offsets in document order. -/
def inOrder (d : Document) (edits : List Edit) : List OffsetEdit :=
  (d.offsetEdits 0 edits).mergeSort fun a b => decide (a.start ≤ b.start)

/-- **The batches that are accepted.** -/
theorem plan_eq_ok_iff {edits : List Edit} {plan : Plan} :
    d.plan edits = .ok plan ↔
      (∀ e ∈ edits, d.InBounds e.range.start ∧ d.InBounds e.range.stop) ∧
        ((d.inOrder edits).IsChain fun e f => e.stop ≤ f.start) ∧
          plan = ⟨d.inOrder edits⟩ := by
  rw [← firstOverlap_eq_none_iff]
  unfold Document.plan
  cases h : d.resolveFrom 0 edits with
  | error c =>
    constructor
    · intro hplan
      cases hplan
    · rintro ⟨hin, -⟩
      rw [resolveFrom_eq_ok_iff.2 ⟨hin, rfl⟩] at h
      cases h
  | ok es =>
    obtain ⟨hin, rfl⟩ := resolveFrom_eq_ok_iff.1 h
    simp only [bind, Except.bind]
    have hsorted : ((d.offsetEdits 0 edits).mergeSort fun a b => decide (a.start ≤ b.start)) =
        d.inOrder edits := rfl
    rw [hsorted]
    cases hover : firstOverlap (d.inOrder edits) with
    | none =>
      simp only [pure, Except.pure, Except.ok.injEq, true_and]
      exact ⟨fun h => ⟨hin, h.symm⟩, fun h => h.2.symm⟩
    | some o => simp [throw, throwThe, MonadExceptOf.throw]

theorem edit_eq_ok_iff {edits : List Edit} {after : Document} {plan : Plan} :
    d.edit edits = .ok (after, plan) ↔
      d.plan edits = .ok plan ∧ after = ofText (plan.apply d.text) := by
  unfold Document.edit
  cases d.plan edits with
  | error c => exact ⟨nofun, fun h => nomatch h.1⟩
  | ok p =>
    constructor
    · intro h
      cases h
      exact ⟨rfl, rfl⟩
    · rintro ⟨h, rfl⟩
      cases h
      rfl

theorem edit_eq_error_iff {edits : List Edit} {c : EditError} :
    d.edit edits = .error c ↔ d.plan edits = .error c := by
  unfold Document.edit
  cases d.plan edits with
  | error c' =>
    constructor <;> intro h <;> cases h <;> rfl
  | ok p => exact ⟨nofun, nofun⟩

/-- What becomes of a batch in bounds depends on the neighbours in document order. -/
theorem plan_of_inBounds {edits : List Edit}
    (h : ∀ e ∈ edits, d.InBounds e.range.start ∧ d.InBounds e.range.stop) :
    d.plan edits = match firstOverlap (d.inOrder edits) with
      | some o => .error (.overlap o)
      | none => .ok ⟨d.inOrder edits⟩ := by
  unfold Document.plan
  rw [resolveFrom_eq_ok_iff.2 ⟨h, rfl⟩]
  rfl

/-- A batch in bounds is refused only because edits overlap. -/
theorem exists_overlap_of_plan {edits : List Edit}
    (h : ∀ e ∈ edits, d.InBounds e.range.start ∧ d.InBounds e.range.stop) {c : EditError}
    (hplan : d.plan edits = .error c) : ∃ o, c = .overlap o := by
  rw [plan_of_inBounds h] at hplan
  split at hplan
  · cases hplan
    exact ⟨_, rfl⟩
  · cases hplan

/-- What a batch replaces and what it puts there, by offsets. -/
theorem map_parts_offsetEdits (k : Nat) (edits : List Edit) :
    (d.offsetEdits k edits).map OffsetEdit.parts =
      edits.map fun e => (d.offsetOf e.range.start, d.offsetOf e.range.stop, e.text) := by
  induction edits generalizing k with
  | nil => rfl
  | cons e es ih => simp [offsetEdits, OffsetEdit.parts, ih]

theorem perm_parts_inOrder (d : Document) (edits : List Edit) :
    ((d.inOrder edits).map OffsetEdit.parts).Perm
      (edits.map fun e => (d.offsetOf e.range.start, d.offsetOf e.range.stop, e.text)) :=
  ((List.mergeSort_perm _ _).map _).trans (.of_eq (map_parts_offsetEdits 0 edits))

/-- The edits in document order are those of the batch. -/
theorem exists_of_mem_inOrder {edits : List Edit} {f : OffsetEdit} (h : f ∈ d.inOrder edits) :
    ∃ e ∈ edits, f.start = d.offsetOf e.range.start ∧ f.stop = d.offsetOf e.range.stop ∧
      f.text = e.text := by
  have hmem := List.mem_map_of_mem (f := OffsetEdit.parts) (List.mem_mergeSort.1 h)
  rw [map_parts_offsetEdits] at hmem
  obtain ⟨e, he, heq⟩ := List.mem_map.1 hmem
  obtain ⟨hstart, hrest⟩ := Prod.mk.inj heq
  obtain ⟨hstop, htext⟩ := Prod.mk.inj hrest
  exact ⟨e, he, hstart.symm, hstop.symm, htext.symm⟩

/-- The offsets of the ranges of a batch. -/
theorem map_offsetEdits (k : Nat) (edits : List Edit) :
    (d.offsetEdits k edits).map (fun e => (e.start, e.stop)) =
      edits.map fun e => (d.offsetOf e.range.start, d.offsetOf e.range.stop) := by
  have h := congrArg (List.map fun p => (p.1, p.2.1)) (map_parts_offsetEdits (d := d) k edits)
  rwa [List.map_map, List.map_map] at h

theorem pairwise_offsetEdits (R : Nat × Nat → Nat × Nat → Prop) (k : Nat) (edits : List Edit) :
    ((d.offsetEdits k edits).Pairwise fun e f => R (e.start, e.stop) (f.start, f.stop)) ↔
      edits.Pairwise fun e f =>
        R (d.offsetOf e.range.start, d.offsetOf e.range.stop)
          (d.offsetOf f.range.start, d.offsetOf f.range.stop) := by
  have h := congrArg (List.Pairwise R) (map_offsetEdits (d := d) k edits)
  rwa [List.pairwise_map, List.pairwise_map, eq_iff_iff] at h

theorem offsetEdit_bounds {edits : List Edit} (h : ∀ e ∈ edits, d.Fits e.range) {k : Nat}
    {e : OffsetEdit} (he : e ∈ d.offsetEdits k edits) : e.start ≤ e.stop ∧ e.stop ≤ d.size := by
  induction edits generalizing k with
  | nil => simp [offsetEdits] at he
  | cons e' edits ih =>
    obtain ⟨hfits, h⟩ := List.forall_mem_cons.1 h
    rcases List.mem_cons.1 he with rfl | he
    · exact ⟨hfits.offsetOf_le, d.offsetOf_le_size _⟩
    · exact ih h he

/-- Sorting changes nothing in a batch that is in order. -/
theorem inOrder_of_sorted {edits : List Edit}
    (hsorted : edits.Pairwise fun e f => d.offsetOf e.range.start ≤ d.offsetOf f.range.start) :
    d.inOrder edits = d.offsetEdits 0 edits := by
  refine List.mergeSort_of_pairwise ?_
  simp only [decide_eq_true_eq]
  exact (pairwise_offsetEdits (fun e f => e.1 ≤ f.1) 0 edits).2 hsorted

/-- **A sorted batch is accepted if and only if no two edits overlap.** -/
theorem exists_plan_iff_of_sorted {edits : List Edit} (hfits : ∀ e ∈ edits, d.Fits e.range)
    (hsorted : edits.Pairwise fun e f => d.offsetOf e.range.start ≤ d.offsetOf f.range.start) :
    (∃ plan, d.plan edits = .ok plan) ↔
      edits.Pairwise fun e f => d.offsetOf e.range.stop ≤ d.offsetOf f.range.start := by
  have hle : ∀ e ∈ d.offsetEdits 0 edits, e.start ≤ e.stop := fun e he =>
    (offsetEdit_bounds hfits he).1
  have hchain : (d.inOrder edits).IsChain (fun e f => e.stop ≤ f.start) ↔
      edits.Pairwise fun e f => d.offsetOf e.range.stop ≤ d.offsetOf f.range.start := by
    rw [inOrder_of_sorted hsorted, isChain_iff_pairwise hle]
    exact pairwise_offsetEdits (fun e f => e.2 ≤ f.1) 0 edits
  rw [← hchain]
  constructor
  · rintro ⟨plan, hplan⟩
    exact (plan_eq_ok_iff.1 hplan).2.1
  · intro h
    exact ⟨_, plan_eq_ok_iff.2 ⟨fun e he => ⟨(hfits e he).start, (hfits e he).stop⟩, h, rfl⟩⟩

theorem length_offsetEdits (k : Nat) (edits : List Edit) :
    (d.offsetEdits k edits).length = edits.length := by
  induction edits generalizing k with
  | nil => rfl
  | cons e es ih => simp [offsetEdits, ih]

theorem length_inOrder (edits : List Edit) : (d.inOrder edits).length = edits.length := by
  rw [inOrder, List.length_mergeSort, length_offsetEdits]

theorem exists_plan_of_length_le_one {edits : List Edit}
    (h : ∀ e ∈ edits, d.InBounds e.range.start ∧ d.InBounds e.range.stop)
    (hlen : edits.length ≤ 1) : ∃ plan, d.plan edits = .ok plan := by
  refine ⟨⟨d.inOrder edits⟩, plan_eq_ok_iff.2 ⟨h, ?_, rfl⟩⟩
  have hlen' := length_inOrder (d := d) edits
  match d.inOrder edits, hlen' with
  | [], _ => exact .nil
  | [e], _ => exact .singleton e
  | e :: f :: es, hlen' =>
    simp only [List.length_cons] at hlen'
    omega

theorem exists_edit_of_length_le_one {edits : List Edit}
    (h : ∀ e ∈ edits, d.InBounds e.range.start ∧ d.InBounds e.range.stop)
    (hlen : edits.length ≤ 1) : ∃ after plan, d.edit edits = .ok (after, plan) := by
  obtain ⟨plan, hplan⟩ := exists_plan_of_length_le_one h hlen
  exact ⟨_, plan, edit_eq_ok_iff.2 ⟨hplan, rfl⟩⟩

theorem edit_nil : d.edit [] = .ok (d, ⟨[]⟩) :=
  edit_eq_ok_iff.2 ⟨plan_eq_ok_iff.2 ⟨by simp, by simp [inOrder, offsetEdits], by
    simp [inOrder, offsetEdits]⟩, Document.eq_of_text rfl⟩

/-- The edits of a plan lie in the text one behind the other, none with a negative length. -/
theorem pairwise_of_plan {edits : List Edit} {plan : Plan} (h : ∀ e ∈ edits, d.Fits e.range)
    (hplan : d.plan edits = .ok plan) :
    (plan.edits.Pairwise fun e f => e.stop ≤ f.start) ∧
      ∀ e ∈ plan.edits, e.start ≤ e.stop ∧ e.stop ≤ d.size := by
  obtain ⟨-, hchain, rfl⟩ := plan_eq_ok_iff.1 hplan
  have hbounds : ∀ e ∈ d.inOrder edits, e.start ≤ e.stop ∧ e.stop ≤ d.size := fun e he =>
    offsetEdit_bounds h (List.mem_mergeSort.1 he)
  exact ⟨(isChain_iff_pairwise fun e he => (hbounds e he).1).1 hchain, hbounds⟩

/-! ### The order of a plan -/

theorem getElem?_offsetEdits (k i : Nat) (edits : List Edit) :
    (d.offsetEdits k edits)[i]? = edits[i]?.map fun e =>
      ⟨d.offsetOf e.range.start, d.offsetOf e.range.stop, e.text, k + i⟩ := by
  induction edits generalizing k i with
  | nil => rfl
  | cons e es ih =>
    cases i with
    | zero => rfl
    | succ i =>
      rw [offsetEdits, List.getElem?_cons_succ, List.getElem?_cons_succ, ih,
        Nat.add_right_comm, Nat.add_assoc]

/-- The edits of a batch are numbered one after the other. -/
theorem map_index_offsetEdits (k : Nat) (edits : List Edit) :
    (d.offsetEdits k edits).map (·.index) = List.range' k edits.length := by
  induction edits generalizing k with
  | nil => rfl
  | cons e es ih => simp [offsetEdits, ih, List.range'_succ]

/-- Sorting by the start keeps edits with the same start in the order of the batch. -/
theorem ordered_mergeSort {es : List OffsetEdit} (h : es.Pairwise fun e f => e.index < f.index) :
    (es.mergeSort fun a b => decide (a.start ≤ b.start)).Pairwise fun e f =>
      e.start < f.start ∨ e.start = f.start ∧ e.index < f.index := by
  induction es with
  | nil => simp
  | cons e es ih =>
    obtain ⟨hfirst, h⟩ := List.pairwise_cons.1 h
    -- The first edit goes in front of all that do not start before it.
    obtain ⟨before, behind, hcons, hes, hbefore⟩ := List.mergeSort_cons
      OffsetEdit.starts_trans OffsetEdit.starts_total e es
    have hsorted := List.pairwise_mergeSort OffsetEdit.starts_trans OffsetEdit.starts_total
      (e :: es)
    have hrest := ih h
    have hmem : ∀ f, f ∈ before ++ behind → e.index < f.index := fun f hf =>
      hfirst f (List.mem_mergeSort.1 (hes ▸ hf))
    rw [hcons] at hsorted ⊢
    rw [hes] at hrest
    obtain ⟨hrest₁, hrest₂, hacross⟩ := List.pairwise_append.1 hrest
    obtain ⟨-, hsorted, -⟩ := List.pairwise_append.1 hsorted
    refine List.pairwise_append.2 ⟨hrest₁, List.pairwise_cons.2 ⟨fun f hf => ?_, hrest₂⟩, ?_⟩
    · have hle := (List.pairwise_cons.1 hsorted).1 f hf
      have hindex := hmem f (List.mem_append_right _ hf)
      simp only [decide_eq_true_eq] at hle
      omega
    · intro f hf g hg
      rcases List.mem_cons.1 hg with rfl | hg
      · have hlt := hbefore f hf
        simp only [Bool.not_eq_true', decide_eq_false_iff_not] at hlt
        omega
      · exact hacross f hf g hg

theorem pairwise_index_offsetEdits (edits : List Edit) :
    (d.offsetEdits 0 edits).Pairwise fun e f => e.index < f.index := by
  have hnumbers : (List.range' 0 edits.length).Pairwise (· < ·) := List.pairwise_lt_range'
  rwa [← map_index_offsetEdits (d := d), List.pairwise_map] at hnumbers

/-- The edits of a batch have only one order. -/
theorem inOrder_eq_of_perm {edits : List Edit} {es : List OffsetEdit}
    (hperm : es.Perm (d.offsetEdits 0 edits))
    (hordered : es.Pairwise fun e f => e.start < f.start ∨ e.start = f.start ∧ e.index < f.index) :
    d.inOrder edits = es := by
  refine ((List.mergeSort_perm _ _).trans hperm.symm).eq_of_pairwise (fun e f _ _ hef hfe => ?_)
    (ordered_mergeSort (pairwise_index_offsetEdits edits)) hordered
  omega

/-- **A plan is in document order**, and edits that start at the same offset keep the order of the
batch. -/
theorem ordered_of_plan {edits : List Edit} {plan : Plan} (h : d.plan edits = .ok plan) :
    plan.edits.Pairwise fun e f => e.start < f.start ∨ e.start = f.start ∧ e.index < f.index := by
  obtain ⟨-, -, rfl⟩ := plan_eq_ok_iff.1 h
  exact ordered_mergeSort (pairwise_index_offsetEdits edits)

/-- A plan is sorted by where its edits start. -/
theorem pairwise_start_inOrder (edits : List Edit) :
    (d.inOrder edits).Pairwise fun e f => e.start ≤ f.start :=
  (List.pairwise_mergeSort OffsetEdit.starts_trans OffsetEdit.starts_total _).imp
    fun h => by simpa using h

/-- **Insertions never overlap.** -/
theorem plan_of_insertions {edits : List Edit}
    (h : ∀ e ∈ edits, d.InBounds e.range.start ∧ e.range.stop = e.range.start) :
    d.plan edits = .ok ⟨d.inOrder edits⟩ := by
  refine plan_eq_ok_iff.2 ⟨fun e he => ⟨(h e he).1, (h e he).2 ▸ (h e he).1⟩, ?_, rfl⟩
  refine ((pairwise_start_inOrder edits).imp_of_mem fun {e f} he _ hle => ?_).isChain
  obtain ⟨e', he', hstart, hstop, -⟩ := exists_of_mem_inOrder he
  rw [(h e' he').2] at hstop
  omega

/-! ### Finding an edit of the batch in its plan -/

theorem map_fst_placed (added removed : Nat) (es : List OffsetEdit) :
    (Plan.placed added removed es).map (·.1) = es := by
  induction es generalizing added removed with
  | nil => rfl
  | cons e es ih => simp [Plan.placed, ih]

theorem nodup_index_of_plan {edits : List Edit} {plan : Plan} (h : d.plan edits = .ok plan) :
    (plan.edits.map (·.index)).Nodup := by
  obtain ⟨-, -, rfl⟩ := plan_eq_ok_iff.1 h
  have hperm := (List.mergeSort_perm (d.offsetEdits 0 edits)
    fun a b => decide (a.start ≤ b.start)).map (·.index)
  rw [map_index_offsetEdits] at hperm
  exact hperm.nodup_iff.2 List.nodup_range'

/-- A plan finds an edit by its place in the batch. -/
theorem find?_of_mem_placed {edits : List Edit} {plan : Plan} (h : d.plan edits = .ok plan)
    {e : OffsetEdit} {o : Nat} (he : (e, o) ∈ Plan.placed 0 0 plan.edits) :
    plan.find? e.index = some (e, o) := by
  have hnodup : ((Plan.placed 0 0 plan.edits).map fun f => f.1.index).Nodup := by
    have := nodup_index_of_plan h
    rwa [← map_fst_placed 0 0 plan.edits, List.map_map] at this
  have hsome : (plan.find? e.index).isSome := List.find?_isSome.2 ⟨_, he, by simp⟩
  obtain ⟨f, hf⟩ := Option.isSome_iff_exists.1 hsome
  have hindex : f.1.index = e.index := by simpa using List.find?_some hf
  rw [hf, List.inj_on_of_nodup_map hnodup (List.mem_of_find?_eq_some hf) he hindex]

/-- **A plan knows every edit of its batch**, and finds it by its place there. -/
theorem exists_placed_of_plan {edits : List Edit} {plan : Plan} (h : d.plan edits = .ok plan)
    {i : Nat} {e : Edit} (hi : edits[i]? = some e) :
    ∃ f o, f = ⟨d.offsetOf e.range.start, d.offsetOf e.range.stop, e.text, i⟩ ∧
      (f, o) ∈ Plan.placed 0 0 plan.edits ∧ plan.find? i = some (f, o) := by
  obtain ⟨-, -, hplan⟩ := plan_eq_ok_iff.1 h
  have hget := getElem?_offsetEdits (d := d) 0 i edits
  rw [hi, Option.map_some, Nat.zero_add] at hget
  have hmem : _ ∈ d.inOrder edits := List.mem_mergeSort.2 (List.mem_of_getElem? hget)
  rw [← map_fst_placed 0 0 (d.inOrder edits)] at hmem
  obtain ⟨⟨f, o⟩, hf, heq⟩ := List.mem_map.1 hmem
  have hf' : (f, o) ∈ Plan.placed 0 0 plan.edits := hplan ▸ hf
  have hfind := find?_of_mem_placed h hf'
  dsimp only at heq
  rw [heq] at hf' hfind
  exact ⟨_, o, rfl, hf', hfind⟩

/-- The text of an edit ends its own length behind where it begins. -/
theorem endOf?_of_plan {edits : List Edit} {plan : Plan} (h : d.plan edits = .ok plan) {i : Nat}
    {e : Edit} (hi : edits[i]? = some e) :
    plan.endOf? i = (plan.startOf? i).map (· + e.text.length) := by
  obtain ⟨f, o, rfl, -, hfind⟩ := exists_placed_of_plan h hi
  rw [Plan.endOf?, Plan.startOf?, hfind]
  rfl

theorem isSome_startOf?_of_plan {edits : List Edit} {plan : Plan} {i : Nat}
    (h : d.plan edits = .ok plan) (hi : i < edits.length) : (plan.startOf? i).isSome := by
  obtain ⟨f, o, -, -, hfind⟩ := exists_placed_of_plan h (List.getElem?_eq_getElem hi)
  rw [Plan.startOf?, hfind]
  rfl

theorem isSome_endOf?_of_plan {edits : List Edit} {plan : Plan} {i : Nat}
    (h : d.plan edits = .ok plan) (hi : i < edits.length) : (plan.endOf? i).isSome := by
  rw [endOf?_of_plan h (List.getElem?_eq_getElem hi), Option.isSome_map]
  exact isSome_startOf?_of_plan h hi

end Document

end ModalEdit
