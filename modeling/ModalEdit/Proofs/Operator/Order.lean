import ModalEdit.Proofs.Operator.Merge

/-!
# Merging and the order of the ranges

The ranges of an operator come in the order of the cursors. Sorting leaves only the order of ranges
that begin and end at the same places, and that order hardly matters: of two such ranges that hold
something the second is merged into the first, whatever its lines, and two that hold nothing are
mostly the same (`Document.Settled`). Then every order is merged to the same ranges
(`Document.mergeRanges_perm`).
-/

namespace ModalEdit

variable {d : Document} {withBreak : Bool} {rs : List Range}

/-! ### Two ranges at the same places -/

namespace Range

/-- The ranges begin and end at the same places. -/
def Tied (r s : Range) : Prop := r.start = s.start ∧ r.stop = s.stop

theorem Tied.refl (r : Range) : r.Tied r := ⟨rfl, rfl⟩

theorem Tied.symm {r s : Range} (h : r.Tied s) : s.Tied r := ⟨h.1.symm, h.2.symm⟩

theorem Tied.eq_of_lines {r s : Range} (h : r.Tied s) (hlines : r.lines = s.lines) : r = s := by
  obtain ⟨start, stop, lines⟩ := r
  obtain ⟨rfl, rfl⟩ := h
  obtain rfl := hlines
  rfl

theorem precedes_of_tied {r s : Range} (h : r.Tied s) : r.precedes s = true := by
  obtain ⟨hstart, hstop⟩ := h
  simp [precedes, hstart, hstop, Position.le_refl]

/-- Ranges that come before each other are at the same places. -/
theorem tied_of_precedes {r s : Range} (h : r.precedes s = true) (h' : s.precedes r = true) :
    r.Tied s := by
  have hstart := Position.le_antisymm (start_le_of_precedes h) (start_le_of_precedes h')
  simp only [precedes, hstart, Position.lt_irrefl, decide_false, beq_self_eq_true, Bool.true_and,
    Bool.false_or, decide_eq_true_eq] at h h'
  exact ⟨hstart, Position.le_antisymm h h'⟩

theorem isEmpty_congr {r s : Range} (h : r.Tied s) : r.isEmpty = s.isEmpty := by
  rw [isEmpty, isEmpty, h.1, h.2]

theorem isEmpty_iff {r : Range} : r.isEmpty = true ↔ r.start = r.stop := by
  simp [isEmpty]

/-- A range that holds something ends behind its start. -/
theorem start_lt_of_not_isEmpty {r : Range} (hr : d.IsSpan withBreak r)
    (h : ¬ r.isEmpty = true) : r.start < r.stop := by
  rcases Position.lt_or_eq_of_le hr.fits.le with hlt | heq
  · exact hlt
  · exact absurd (isEmpty_iff.2 heq) h

/-- It does not matter which of two ranges at the same places comes first. -/
theorem union_comm_of_tied {r s : Range} (hr : d.IsSpan withBreak r) (hs : d.IsSpan withBreak s)
    (h : r.Tied s) : r.union d s = s.union d r := by
  by_cases hlines : r.lines = none ∨ s.lines = none
  · rw [union_of_lines_eq_none hlines hr.fits.le, union_of_lines_eq_none hlines.symm hs.fits.le,
      h.1, h.2]
  · cases hr with
    | chars hr => exact absurd (.inl hr.lines) hlines
    | lines hle hlast =>
      cases hs with
      | chars hs => exact absurd (.inr hs.lines) hlines
      | lines hle' hlast' =>
        rw [union_linesSpan hle hlast hle' hlast', union_linesSpan hle' hlast' hle hlast,
          Nat.min_comm, Nat.max_comm]

theorem union_self {r : Range} (hr : d.IsSpan withBreak r) : r.union d r = r := by
  cases hr with
  | chars hr =>
    rw [union_of_lines_eq_none (.inl hr.lines) hr.le, Position.max_eq_right (Position.le_refl _),
      ← hr.lines]
  | lines hle hlast => rw [union_linesSpan hle hlast hle hlast, Nat.min_self, Nat.max_self]

end Range

namespace Document

/-- A merged range that does not stand for lines begins with its head. -/
theorem Form.start_of_lines_eq_none {h : Position} {q : Range} (hq : d.Form withBreak rs h q)
    (hlines : q.lines = none) : q.start = h := by
  cases hq with
  | chars _ hstart => exact hstart
  | lines => cases hlines

/-- **It does not matter which of two ranges is merged into a group first.** -/
theorem Form.union_right_comm (hrs : d.Regular withBreak rs) {h : Position} {q x y : Range}
    (hq : d.Form withBreak rs h q) (hx : x ∈ rs) (hy : y ∈ rs) (hhx : h ≤ x.start)
    (hhy : h ≤ y.start) : (q.union d x).union d y = (q.union d y).union d x := by
  have hqx := hq.union hrs hx hhx
  have hqy := hq.union hrs hy hhy
  have hxspan := hrs.span x hx
  have hyspan := hrs.span y hy
  by_cases hlines : q.lines ≠ none ∧ x.lines ≠ none ∧ y.lines ≠ none
  · obtain ⟨hqlines, hxlines, hylines⟩ := hlines
    have hqspan := hq.isSpan
    cases hqspan with
    | chars hq => exact absurd hq.lines hqlines
    | lines hle hlast =>
      cases hxspan with
      | chars hx => exact absurd hx.lines hxlines
      | lines hlex hlastx =>
        cases hyspan with
        | chars hy => exact absurd hy.lines hylines
        | lines hley hlasty =>
          rw [Range.union_linesSpan hle hlast hlex hlastx,
            Range.union_linesSpan hle hlast hley hlasty,
            Range.union_linesSpan (by omega) (by omega) hley hlasty,
            Range.union_linesSpan (by omega) (by omega) hlex hlastx, Nat.min_right_comm,
            Nat.max_right_comm]
  · -- One of the three is a piece of characters, and so is what becomes of all of them.
    have hnone {p r : Range} (hp : d.IsSpan withBreak p) (hr : d.IsSpan withBreak r)
        (hqp : d.IsSpan withBreak (q.union d p))
        (hsome : p.lines ≠ none → r.lines ≠ none → q.lines = none) :
        ((q.union d p).union d r).lines = none := by
      by_contra hm
      obtain ⟨m, hm⟩ := Option.ne_none_iff_exists'.1 hm
      obtain ⟨l, l', hl, hl', -⟩ := Range.lines_union hqp hr hm
      obtain ⟨l₁, l₂, hl₁, hl₂, -⟩ := Range.lines_union hq.isSpan hp hl
      have := hsome (by simp [hl₂]) (by simp [hl'])
      simp [hl₁] at this
    have hnonex : ((q.union d x).union d y).lines = none :=
      hnone hxspan hyspan hqx.isSpan fun h h' => by
        by_contra hql
        exact hlines ⟨hql, h, h'⟩
    have hnoney : ((q.union d y).union d x).lines = none :=
      hnone hyspan hxspan hqy.isSpan fun h h' => by
        by_contra hql
        exact hlines ⟨hql, h', h⟩
    have hstartx := (hqx.union hrs hy hhy).start_of_lines_eq_none hnonex
    have hstarty := (hqy.union hrs hx hhx).start_of_lines_eq_none hnoney
    have hstop : ((q.union d x).union d y).stop = ((q.union d y).union d x).stop := by
      rw [Range.stop_union hqx.isSpan hyspan, Range.stop_union hqy.isSpan hxspan,
        Range.stop_union hq.isSpan hxspan, Range.stop_union hq.isSpan hyspan,
        Position.max_right_comm]
    exact Range.Tied.eq_of_lines ⟨hstartx.trans hstarty.symm, hstop⟩ (hnonex.trans hnoney.symm)

/-- Ranges at the same places that hold nothing are the same, so that sorting leaves no order of
theirs. -/
def Settled (rs : List Range) : Prop := ∀ r ∈ rs, ∀ s ∈ rs, r.Tied s → r.isEmpty = true → r = s

end Document

/-! ### Groups -/

namespace Group

variable {g : Group} {rest : List Range} {x y : Range}

theorem mergeFrom_cons_pos (h : x.start < g.range.stop ∨ x = g.range) :
    g.mergeFrom d (x :: rest) = mergeFrom d ⟨g.head, g.range.union d x⟩ rest := if_pos h

theorem mergeFrom_cons_neg (h : ¬ (x.start < g.range.stop ∨ x = g.range)) :
    g.mergeFrom d (x :: rest) = g :: mergeFrom d ⟨x.start, x⟩ rest := if_neg h

/-- What follows a range may be told otherwise if every group that can be open then goes on the
same. -/
theorem mergeFrom_cons_congr (hrs : d.Regular withBreak rs)
    (hg : d.Form withBreak rs g.head g.range) (hx : x ∈ rs) (hle : g.head ≤ x.start)
    {l l' : List Range} (h : ∀ g' : Group, d.Form withBreak rs g'.head g'.range →
      g'.head ≤ x.start → g'.mergeFrom d l = g'.mergeFrom d l') :
    g.mergeFrom d (x :: l) = g.mergeFrom d (x :: l') := by
  by_cases hover : x.start < g.range.stop ∨ x = g.range
  · rw [mergeFrom_cons_pos hover, mergeFrom_cons_pos hover]
    exact h _ (hg.union hrs hx hle) hle
  · rw [mergeFrom_cons_neg hover, mergeFrom_cons_neg hover]
    rw [h ⟨x.start, x⟩ (.of_mem hx (hrs.span x hx)) (Position.le_refl _)]

/-- It does not matter which of two ranges at the same places opens a group. -/
theorem mergeFrom_open_swap (hx : d.IsSpan withBreak x) (hy : d.IsSpan withBreak y)
    (htied : x.Tied y) (hempty : x.isEmpty = true → x = y) (rest : List Range) :
    mergeFrom d ⟨x.start, x⟩ (y :: rest) = mergeFrom d ⟨y.start, y⟩ (x :: rest) := by
  by_cases hnothing : x.isEmpty = true
  · rw [hempty hnothing]
  · -- The one that opens the group takes the other one in.
    have hlt := Range.start_lt_of_not_isEmpty hx hnothing
    have hin : y.start < x.stop := htied.1 ▸ hlt
    have hin' : x.start < y.stop := htied.2 ▸ hlt
    rw [mergeFrom_cons_pos (.inl hin), mergeFrom_cons_pos (.inl hin')]
    dsimp only
    rw [Range.union_comm_of_tied hx hy htied, htied.1]

/-- **Two neighbours at the same places can be exchanged.** -/
theorem mergeFrom_swap (hrs : d.Regular withBreak rs) (hg : d.Form withBreak rs g.head g.range)
    (hx : x ∈ rs) (hy : y ∈ rs) (hle : g.head ≤ x.start) (htied : x.Tied y)
    (hempty : x.isEmpty = true → x = y) (rest : List Range) :
    g.mergeFrom d (x :: y :: rest) = g.mergeFrom d (y :: x :: rest) := by
  have hley : g.head ≤ y.start := htied.1 ▸ hle
  by_cases hover : x.start < g.range.stop
  · -- Both ranges go to the group that is open.
    have hstop {z w : Range} (hz : z ∈ rs) (hw : w.start < g.range.stop) :
        w.start < (g.range.union d z).stop := by
      rw [Range.stop_union hg.isSpan (hrs.span z hz)]
      exact Position.lt_of_lt_of_le hw (Position.le_max_left _ _)
    have hovery : y.start < g.range.stop := htied.1 ▸ hover
    rw [mergeFrom_cons_pos (.inl hover), mergeFrom_cons_pos (.inl (hstop hx hovery)),
      mergeFrom_cons_pos (.inl hovery), mergeFrom_cons_pos (.inl (hstop hy hover))]
    dsimp only
    rw [hg.union_right_comm hrs hx hy hle hley]
  · by_cases hnothing : x.isEmpty = true
    · rw [hempty hnothing]
    · have hlt := Range.start_lt_of_not_isEmpty (hrs.span x hx) hnothing
      have hnew {z : Range} (hz : z.Tied x) : ¬ (z.start < g.range.stop ∨ z = g.range) := by
        rintro (h | rfl)
        · exact hover (hz.1 ▸ h)
        · exact hover (hz.2 ▸ hlt)
      rw [mergeFrom_cons_neg (hnew (.refl x)), mergeFrom_cons_neg (hnew htied.symm),
        mergeFrom_open_swap (hrs.span x hx) (hrs.span y hy) htied hempty]

/-- A range can be put in front of those at its places. -/
theorem mergeFrom_move (hrs : d.Regular withBreak rs) (hsettled : Document.Settled rs)
    (hg : d.Form withBreak rs g.head g.range) (hx : x ∈ rs) (hle : g.head ≤ x.start)
    {front : List Range} (hfront : ∀ r ∈ front, r ∈ rs ∧ r.Tied x) (rest : List Range) :
    g.mergeFrom d (front ++ x :: rest) = g.mergeFrom d (x :: (front ++ rest)) := by
  induction front generalizing g with
  | nil => rfl
  | cons r front ih =>
    obtain ⟨⟨hr, htied⟩, hfront⟩ := List.forall_mem_cons.1 hfront
    have hler : g.head ≤ r.start := htied.1 ▸ hle
    calc g.mergeFrom d (r :: (front ++ x :: rest))
        = g.mergeFrom d (r :: x :: (front ++ rest)) :=
          mergeFrom_cons_congr hrs hg hr hler fun g' hg' hle' =>
            ih hg' (Position.le_trans hle' (htied.1 ▸ Position.le_refl _)) hfront
      _ = g.mergeFrom d (x :: r :: (front ++ rest)) :=
          mergeFrom_swap hrs hg hr hx hler htied (hsettled r hr x hx htied) _

/-- The first range of a list in order stands behind ranges at its places in any other order. -/
theorem exists_front_of_perm {l l' : List Range} (hperm : l'.Perm (x :: l))
    (hl : (x :: l).Pairwise fun r s => r.precedes s = true)
    (hl' : l'.Pairwise fun r s => r.precedes s = true) :
    ∃ front back, l' = front ++ x :: back ∧ (∀ r ∈ front, r.Tied x) ∧
      (front ++ back).Perm l ∧ (front ++ back).Pairwise fun r s => r.precedes s = true := by
  obtain ⟨front, back, rfl⟩ := List.append_of_mem (hperm.mem_iff.2 List.mem_cons_self)
  have hsub : (front ++ back).Sublist (front ++ x :: back) :=
    (List.Sublist.refl front).append (List.sublist_cons_self x back)
  refine ⟨front, back, rfl, fun r hr => ?_, (List.perm_middle.symm.trans hperm).cons_inv,
    hl'.sublist hsub⟩
  have hbefore : r.precedes x = true := (List.pairwise_append.1 hl').2.2 r hr x List.mem_cons_self
  rcases List.mem_cons.1 (hperm.mem_iff.1 (List.mem_append_left _ hr)) with rfl | hmem
  · exact .refl r
  · exact Range.tied_of_precedes hbefore (List.rel_of_pairwise_cons hl hmem)

/-- **Ranges in order are merged to the same groups**, however those at the same places are
listed. -/
theorem mergeFrom_perm (hrs : d.Regular withBreak rs) (hsettled : Document.Settled rs)
    {l l' : List Range} (hperm : l'.Perm l) (hl : l.Pairwise fun r s => r.precedes s = true)
    (hl' : l'.Pairwise fun r s => r.precedes s = true)
    (hg : d.Form withBreak rs g.head g.range) (hmem : ∀ r ∈ l, r ∈ rs ∧ g.head ≤ r.start) :
    g.mergeFrom d l' = g.mergeFrom d l := by
  induction l generalizing l' g with
  | nil => rw [hperm.eq_nil]
  | cons x l ih =>
    obtain ⟨front, back, rfl, htied, hperm', hback⟩ := exists_front_of_perm hperm hl hl'
    obtain ⟨⟨hx, hle⟩, hrest⟩ := List.forall_mem_cons.1 hmem
    have hfront : ∀ r ∈ front, r ∈ rs ∧ r.Tied x := fun r hr =>
      ⟨(hmem r (hperm.mem_iff.1 (List.mem_append_left _ hr))).1, htied r hr⟩
    calc g.mergeFrom d (front ++ x :: back)
        = g.mergeFrom d (x :: (front ++ back)) := mergeFrom_move hrs hsettled hg hx hle hfront back
      _ = g.mergeFrom d (x :: l) := by
        refine mergeFrom_cons_congr hrs hg hx hle fun g' hg' hle' => ?_
        refine ih hperm' hl.of_cons hback hg' fun r hr => ⟨(hrest r hr).1, ?_⟩
        exact Position.le_trans hle' (Range.start_le_of_precedes (List.rel_of_pairwise_cons hl hr))

end Group

/-! ### All ranges -/

/-- Merge ranges that are in order. -/
def Range.mergeSorted (d : Document) : List Range → List Range
  | [] => []
  | r :: rs => r.mergeFrom d rs

namespace Range

theorem mergeSorted_cons (r : Range) (l : List Range) :
    mergeSorted d (r :: l) = (Group.mergeFrom d ⟨r.start, r⟩ l).map (·.range) :=
  (Group.map_range_mergeFrom ⟨r.start, r⟩ l).symm

/-- **Ranges in order are merged to the same ranges**, however those at the same places are
listed. -/
theorem mergeSorted_perm (hrs : d.Regular withBreak rs) (hsettled : Document.Settled rs)
    {l l' : List Range} (hperm : l'.Perm l) (hl : l.Pairwise fun r s => r.precedes s = true)
    (hl' : l'.Pairwise fun r s => r.precedes s = true) (hmem : ∀ r ∈ l, r ∈ rs) :
    mergeSorted d l' = mergeSorted d l := by
  cases l with
  | nil => rw [hperm.eq_nil]
  | cons x l =>
    obtain ⟨front, back, rfl, htied, hperm', hback⟩ := Group.exists_front_of_perm hperm hl hl'
    obtain ⟨hx, hrest⟩ := List.forall_mem_cons.1 hmem
    have hform {r : Range} (hr : r ∈ rs) : d.Form withBreak rs r.start r :=
      .of_mem hr (hrs.span r hr)
    have hgroups : Group.mergeFrom d ⟨x.start, x⟩ (front ++ back) =
        Group.mergeFrom d ⟨x.start, x⟩ l :=
      Group.mergeFrom_perm hrs hsettled hperm' hl.of_cons hback (hform hx) fun r hr =>
        ⟨hrest r hr, start_le_of_precedes (List.rel_of_pairwise_cons hl hr)⟩
    rw [mergeSorted_cons, ← hgroups]
    cases front with
    | nil => rw [List.nil_append, mergeSorted_cons, List.nil_append]
    | cons r front =>
      -- The range in front opens the first group, to which `x` moves up.
      have hmem' : ∀ s ∈ r :: front, s ∈ rs ∧ s.Tied x := fun s hs =>
        ⟨hmem s (hperm.mem_iff.1 (List.mem_append_left _ hs)), htied s hs⟩
      obtain ⟨⟨hr, hrx⟩, hfront⟩ := List.forall_mem_cons.1 hmem'
      have hle : r.start ≤ x.start := hrx.1 ▸ Position.le_refl _
      rw [List.cons_append, List.cons_append, mergeSorted_cons,
        Group.mergeFrom_move hrs hsettled (hform hr) hx hle hfront,
        Group.mergeFrom_open_swap (hrs.span r hr) (hrs.span x hx) hrx (hsettled r hr x hx hrx)]

end Range

namespace Document

theorem mergeRanges_eq_mergeSorted (rs : List Range) :
    d.mergeRanges rs = Range.mergeSorted d (rs.mergeSort Range.precedes) := by
  unfold mergeRanges
  cases rs.mergeSort Range.precedes <;> rfl

theorem mergeRanges_of_pairwise (h : rs.Pairwise fun r s => r.precedes s = true) :
    d.mergeRanges rs = Range.mergeSorted d rs := by
  rw [mergeRanges_eq_mergeSorted, List.mergeSort_of_pairwise h]

theorem pairwise_precedes_mergeSort (rs : List Range) :
    (rs.mergeSort Range.precedes).Pairwise fun r s => r.precedes s = true :=
  List.pairwise_mergeSort Range.precedes_trans Range.precedes_total rs

/-- **Settled ranges are merged to the same ranges in every order.** -/
theorem mergeRanges_perm (hrs : d.Regular withBreak rs) (hsettled : Settled rs) {rs' : List Range}
    (hperm : rs'.Perm rs) : d.mergeRanges rs' = d.mergeRanges rs := by
  rw [mergeRanges_eq_mergeSorted, mergeRanges_eq_mergeSorted]
  refine Range.mergeSorted_perm hrs hsettled ?_ (pairwise_precedes_mergeSort rs)
    (pairwise_precedes_mergeSort rs') fun r => List.mem_mergeSort.1
  exact (List.mergeSort_perm rs' _).trans (hperm.trans (List.mergeSort_perm rs _).symm)

/-- Some of the ranges are regular if all of them are. -/
theorem Regular.of_subset (hrs : d.Regular withBreak rs) {rs' : List Range}
    (hsub : ∀ r ∈ rs', r ∈ rs) : d.Regular withBreak rs' where
  span r hr := hrs.span r (hsub r hr)
  unmixed hbreak := (hrs.unmixed hbreak).imp (fun h r hr => h r (hsub r hr))
    fun h r hr => h r (hsub r hr)

end Document

end ModalEdit
