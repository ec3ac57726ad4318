import Mathlib.Data.List.Destutter
import ModalEdit.Proofs.Operator.Order

/-!
# Merging at the start of the document

Of ranges at one place that hold nothing some can be empty lines and the others pieces of no
characters, but only at the start of the document, where neither of them takes the other in. The
ranges there are merged apart from all others (`Document.Orderly.mergeRanges_eq_append`), and only
repetitions that follow each other are dropped.

An empty first line counts as an entry for the registers each time. So the entries depend on the
order in which the ranges are found, if and only if the ranges are torn (`Range.Torn`).
-/

namespace ModalEdit

variable {d : Document} {withBreak : Bool} {rs : List Range}

/-! ### Ranges that hold nothing -/

namespace Range

/-- The line `i`, which is empty, without a break. -/
def emptyLine (i : Nat) : Range := ⟨⟨i, 0⟩, ⟨i, 0⟩, some ⟨i, i⟩⟩

/-- The range holds nothing and is at the start of the document. -/
def atOrigin (r : Range) : Bool := r.isEmpty && r.start == .origin

theorem atOrigin_iff {r : Range} : r.atOrigin = true ↔ r.start = .origin ∧ r.stop = .origin := by
  simp only [atOrigin, isEmpty, Bool.and_eq_true, beq_iff_eq]
  constructor
  · rintro ⟨hstop, hstart⟩
    exact ⟨hstart, hstop ▸ hstart⟩
  · rintro ⟨hstart, hstop⟩
    exact ⟨hstart.trans hstop.symm, hstart⟩

end Range

open Range

theorem Document.IsSpan.eq_of_isEmpty {r : Range} (hr : d.IsSpan withBreak r)
    (hempty : r.isEmpty = true) :
    r = emptyAt r.start ∨ ∃ i, r = emptyLine i ∧ d.lineLen i = 0 := by
  have hsame := isEmpty_iff.1 hempty
  cases hr with
  | chars hr => exact .inl (Tied.eq_of_lines ⟨rfl, hsame.symm⟩ hr.lines)
  | @lines first last hle hlast =>
    refine .inr ⟨first, ?_⟩
    rw [start_linesSpan hle hlast, stop_linesSpan hle hlast] at hsame
    have hplace : first = last ∧ d.lineLen last = 0 ∧ ¬ (withBreak ∧ last < d.lastLine) ∧
        ¬ (withBreak ∧ last = d.lastLine ∧ 0 < first) := by
      revert hsame
      split <;> split <;> simp only [lineEnd, Position.mk.injEq] <;> intro hsame
      all_goals first | omega | exact ⟨hsame.1, hsame.2.symm, ‹_›, ‹_›⟩
    obtain ⟨rfl, hlen, hbehind, hbefore⟩ := hplace
    refine ⟨Tied.eq_of_lines ⟨?_, ?_⟩ (lines_linesSpan_of_le hle hlast), hlen⟩
    · rw [start_linesSpan hle hlast, if_neg hbefore]
      rfl
    · rw [stop_linesSpan hle hlast, if_neg hbehind, lineEnd, hlen]
      rfl

/-- At the start of the document there is a piece of no characters, or the first line. -/
theorem Document.IsSpan.eq_of_atOrigin {r : Range} (hr : d.IsSpan withBreak r)
    (horigin : r.atOrigin = true) :
    r = emptyAt .origin ∨ r = emptyLine 0 ∧ d.lineLen 0 = 0 := by
  obtain ⟨hstart, hstop⟩ := atOrigin_iff.1 horigin
  rcases hr.eq_of_isEmpty (isEmpty_iff.2 (hstart.trans hstop.symm)) with h | ⟨i, rfl, hlen⟩
  · exact .inl (hstart ▸ h)
  · obtain rfl : i = 0 := congrArg Position.line hstart
    exact .inr ⟨rfl, hlen⟩

namespace Document

/-- Regular ranges of which pieces of no characters and empty lines are found at one place only
where the document starts. -/
structure Orderly (d : Document) (withBreak : Bool) (rs : List Range) : Prop
    extends d.Regular withBreak rs where
  /-- The place at which both are found. -/
  origin : ∀ r ∈ rs, ∀ s ∈ rs, r.Tied s → r.isEmpty = true → r.lines = none → s.lines ≠ none →
    r.atOrigin = true

namespace Orderly

theorem of_perm (h : d.Orderly withBreak rs) {rs' : List Range} (hperm : rs'.Perm rs) :
    d.Orderly withBreak rs' where
  toRegular := h.of_subset fun _ hr => hperm.mem_iff.1 hr
  origin r hr s hs := h.origin r (hperm.mem_iff.1 hr) s (hperm.mem_iff.1 hs)

/-- Away from the start of the document ranges at one place that hold nothing are the same. -/
theorem settled (h : d.Orderly withBreak rs) : Settled (rs.filter fun r => !r.atOrigin) := by
  intro r hr s hs htied hempty
  obtain ⟨hr, hplace⟩ := List.mem_filter.1 hr
  obtain ⟨hs, hplace'⟩ := List.mem_filter.1 hs
  have hempty' : s.isEmpty = true := isEmpty_congr htied ▸ hempty
  have hunmixed {r s : Range} (hr : r ∈ rs) (hs : s ∈ rs) (hplace : (!r.atOrigin) = true)
      (htied : r.Tied s) (hempty : r.isEmpty = true) (hnone : r.lines = none) : s.lines = none := by
    by_contra hlines
    rw [h.origin r hr s hs htied hempty hnone hlines] at hplace
    cases hplace
  refine htied.eq_of_lines ?_
  rcases (h.span r hr).eq_of_isEmpty hempty with hr' | ⟨i, hi, -⟩
  · have hnone : r.lines = none := hr' ▸ rfl
    rw [hnone, hunmixed hr hs hplace htied hempty hnone]
  · rcases (h.span s hs).eq_of_isEmpty hempty' with hs' | ⟨j, hj, -⟩
    · have hnone : s.lines = none := hs' ▸ rfl
      rw [hnone, hunmixed hs hr hplace' htied.symm hempty' hnone]
    · have hline : i = j := by
        have hstart := htied.1
        rw [hi, hj] at hstart
        exact congrArg Position.line hstart
      rw [hi, hj, hline]

end Orderly

end Document

/-! ### The start of the document -/

namespace Range

/-- Ranges that hold nothing at the start of the document are merged only with their like, and with
nothing that follows. -/
theorem mergeFrom_append {r : Range} (hr : d.IsSpan withBreak r ∧ r.atOrigin = true)
    {front rest : List Range} (hfront : ∀ s ∈ front, d.IsSpan withBreak s ∧ s.atOrigin = true)
    (hrest : ∀ s ∈ rest, s.atOrigin = false) :
    r.mergeFrom d (front ++ rest) = front.destutter' (· ≠ ·) r ++ mergeSorted d rest := by
  have hnot {r s : Range} (hr : r.atOrigin = true) : ¬ s.start < r.stop := by
    rw [(atOrigin_iff.1 hr).2]
    exact Position.not_lt.2 (Position.origin_le _)
  induction front generalizing r with
  | nil =>
    cases rest with
    | nil => rfl
    | cons s rest =>
      have hne : s ≠ r := by
        rintro rfl
        have hnone := hrest s List.mem_cons_self
        rw [hr.2] at hnone
        cases hnone
      rw [List.nil_append, mergeFrom, if_neg (not_or.2 ⟨hnot hr.2, hne⟩)]
      rfl
  | cons s front ih =>
    obtain ⟨hs, hfront⟩ := List.forall_mem_cons.1 hfront
    rw [List.cons_append, mergeFrom]
    by_cases hsame : s = r
    · subst hsame
      rw [if_pos (.inr rfl), union_self hr.1, ih hr hfront,
        List.destutter'_cons_neg _ (not_not.2 rfl)]
    · rw [if_neg (not_or.2 ⟨hnot hr.2, hsame⟩), ih hs hfront,
        List.destutter'_cons_pos _ (Ne.symm hsame), List.cons_append]

theorem mergeSorted_append {front rest : List Range}
    (hfront : ∀ s ∈ front, d.IsSpan withBreak s ∧ s.atOrigin = true)
    (hrest : ∀ s ∈ rest, s.atOrigin = false) :
    mergeSorted d (front ++ rest) = front.destutter (· ≠ ·) ++ mergeSorted d rest := by
  cases front with
  | nil => rfl
  | cons r front =>
    obtain ⟨hr, hfront⟩ := List.forall_mem_cons.1 hfront
    exact mergeFrom_append hr hfront hrest

end Range

/-- A list is cut in two where the elements with a property end, if they come first. -/
theorem eq_filter_append_filter {α : Type} {p : α → Bool} {l : List α}
    (h : l.Pairwise fun a b => p b = true → p a = true) :
    l = l.filter p ++ l.filter fun a => !p a := by
  induction l with
  | nil => rfl
  | cons a l ih =>
    obtain ⟨hfirst, hrest⟩ := List.pairwise_cons.1 h
    by_cases ha : p a = true
    · rw [List.filter_cons_of_pos ha, List.filter_cons_of_neg (by simp [ha]), List.cons_append,
        ← ih hrest]
    · have hnone : ∀ b ∈ l, ¬ p b = true := fun b hb hp => ha (hfirst b hb hp)
      rw [List.filter_cons_of_neg ha, List.filter_eq_nil_iff.2 hnone, List.nil_append,
        List.filter_eq_self.2 fun b hb => ?_]
      rcases List.mem_cons.1 hb with rfl | hb
      · simpa using ha
      · simpa using hnone b hb

namespace Document

/-- Ranges that hold nothing at the start of the document come first when ranges are sorted, in the
order in which they were found. -/
theorem mergeSort_eq_append (rs : List Range) :
    rs.mergeSort precedes =
      rs.filter atOrigin ++ (rs.mergeSort precedes).filter fun r => !r.atOrigin := by
  have hsorted := pairwise_precedes_mergeSort rs
  have hcut := eq_filter_append_filter (p := atOrigin) (hsorted.imp fun {r s} h hs => by
    obtain ⟨hstart, hstop⟩ := atOrigin_iff.1 hs
    have hr : r.start = .origin :=
      Position.le_antisymm (hstart ▸ start_le_of_precedes h) (Position.origin_le _)
    simp only [precedes, hr, hstart, hstop, Position.lt_irrefl, decide_false, beq_self_eq_true,
      Bool.true_and, Bool.false_or, decide_eq_true_eq] at h
    exact atOrigin_iff.2 ⟨hr, Position.le_antisymm h (Position.origin_le _)⟩)
  -- Sorting is stable, and all ranges there are at the same places.
  have hties : (rs.filter atOrigin).Pairwise fun r s => r.precedes s = true := by
    refine List.pairwise_of_forall_mem_list fun r hr s hs => precedes_of_tied ?_
    obtain ⟨hr, hr'⟩ := atOrigin_iff.1 (List.mem_filter.1 hr).2
    obtain ⟨hs, hs'⟩ := atOrigin_iff.1 (List.mem_filter.1 hs).2
    exact ⟨hr.trans hs.symm, hr'.trans hs'.symm⟩
  have hsub : (rs.filter atOrigin).Sublist ((rs.mergeSort precedes).filter atOrigin) := by
    have h := (List.sublist_mergeSort precedes_trans precedes_total hties
      List.filter_sublist).filter atOrigin
    simpa using h
  have hfront : rs.filter atOrigin = (rs.mergeSort precedes).filter atOrigin :=
    hsub.eq_of_length (((List.mergeSort_perm rs precedes).filter _).length_eq).symm
  rw [hfront]
  exact hcut

/-- **The start of the document is merged apart** from all other ranges. -/
theorem Orderly.mergeRanges_eq_append (hrs : d.Orderly withBreak rs) :
    d.mergeRanges rs = (rs.filter atOrigin).destutter (· ≠ ·) ++
      d.mergeRanges (rs.filter fun r => !r.atOrigin) := by
  have hrest : ∀ r ∈ (rs.mergeSort precedes).filter (fun r => !r.atOrigin), r.atOrigin = false :=
    fun r hr => by simpa using (List.mem_filter.1 hr).2
  have hfront : ∀ r ∈ rs.filter atOrigin, d.IsSpan withBreak r ∧ r.atOrigin = true := fun r hr =>
    ⟨hrs.span r (List.mem_filter.1 hr).1, (List.mem_filter.1 hr).2⟩
  rw [mergeRanges_eq_mergeSorted, mergeRanges_eq_mergeSorted, mergeSort_eq_append,
    mergeSorted_append hfront hrest]
  congr 1
  refine mergeSorted_perm (hrs.of_subset fun r hr => (List.mem_filter.1 hr).1) hrs.settled ?_
    (pairwise_precedes_mergeSort _) ((pairwise_precedes_mergeSort rs).filter _)
    fun r => List.mem_mergeSort.1
  exact ((List.mergeSort_perm rs precedes).filter _).trans (List.mergeSort_perm _ precedes).symm

/-! ### Edits and register entries -/

/-- The register entries for ranges. -/
def entriesOf (d : Document) (rs : List Range) : List RegisterEntry :=
  ((d.mergeRanges rs).map d.registerEntry).filter fun e => !e.text.isEmpty

theorem isEmpty_text_registerEntry (p : Position) :
    (d.registerEntry (emptyAt p)).text.isEmpty = true := by
  simp [registerEntry, emptyAt, slice, RegisterEntry.charwise, RegisterEntry.make]

theorem registerEntry_emptyLine (hlen : d.lineLen 0 = 0) :
    d.registerEntry (emptyLine 0) = ⟨['\n'], true⟩ := by
  obtain ⟨l, ls, hlines⟩ := List.exists_cons_of_ne_nil d.lines_ne_nil
  have hbody : dropBreak l = [] := by
    rw [lineLen, content, line?, hlines] at hlen
    exact List.length_eq_zero_iff.1 hlen
  simp [registerEntry, emptyLine, linesText, hlines, hbody, RegisterEntry.ofLines,
    RegisterEntry.make]

/-- Of the ranges at the start of the document only the empty line has an entry. -/
theorem filter_entries_atOrigin {l : List Range}
    (h : ∀ r ∈ l, r = emptyAt .origin ∨ r = emptyLine 0 ∧ d.lineLen 0 = 0) :
    ((l.map d.registerEntry).filter fun e => !e.text.isEmpty) =
      List.replicate (l.count (emptyLine 0)) ⟨['\n'], true⟩ := by
  induction l with
  | nil => rfl
  | cons r l ih =>
    obtain ⟨hr, hl⟩ := List.forall_mem_cons.1 h
    rw [List.map_cons, List.filter_cons, ih hl]
    rcases hr with rfl | ⟨rfl, hlen⟩
    · rw [isEmpty_text_registerEntry, List.count_cons_of_ne (by decide)]
      rfl
    · rw [registerEntry_emptyLine hlen, List.count_cons_self, List.replicate_succ]
      rfl

end Document

namespace Range

/-- How many entries the empty first line makes: one for every run of it among the ranges at the
start of the document. -/
def emptyRuns (rs : List Range) : Nat :=
  ((rs.filter atOrigin).destutter (· ≠ ·)).count (emptyLine 0)

/-- The empty first line is found more than once, and so are no characters in front of it. -/
def Torn (rs : List Range) : Prop := emptyAt .origin ∈ rs ∧ 2 ≤ rs.count (emptyLine 0)

instance (rs : List Range) : Decidable (Torn rs) := inferInstanceAs (Decidable (_ ∧ _))

/-- Dropping repetitions drops no element. -/
theorem mem_destutter_ne_iff {α : Type} [DecidableEq α] {l : List α} {a : α} :
    a ∈ l.destutter (· ≠ ·) ↔ a ∈ l := by
  refine ⟨fun h => (List.destutter_sublist _ l).subset h, fun h => ?_⟩
  have hkept (l : List α) (b : α) (h : a ∈ b :: l) : a ∈ l.destutter' (· ≠ ·) b := by
    induction l generalizing b with
    | nil => exact h
    | cons c l ih =>
      by_cases hbc : b = c
      · rw [List.destutter'_cons_neg _ (not_not.2 hbc)]
        exact ih b (by simpa [hbc] using h)
      · rw [List.destutter'_cons_pos _ hbc]
        rcases List.mem_cons.1 h with rfl | h
        · exact List.mem_cons_self
        · exact List.mem_cons_of_mem _ (ih c h)
  cases l with
  | nil => cases h
  | cons b l => exact hkept l b h

/-- Where the ranges are not torn, every order has the same runs of the empty line. -/
theorem emptyRuns_perm (hspan : ∀ r ∈ rs, d.IsSpan withBreak r) (htorn : ¬ Torn rs)
    {rs' : List Range} (hperm : rs'.Perm rs) : emptyRuns rs' = emptyRuns rs := by
  have hfilter : (rs'.filter atOrigin).Perm (rs.filter atOrigin) := hperm.filter _
  by_cases hpiece : emptyAt .origin ∈ rs
  · -- There is at most one such line, which makes a run by itself.
    have hcount {l : List Range} (hl : l.count (emptyLine 0) ≤ 1) :
        emptyRuns l = (l.filter atOrigin).count (emptyLine 0) := by
      have hle : emptyRuns l ≤ (l.filter atOrigin).count (emptyLine 0) :=
        (List.destutter_sublist _ _).count_le _
      have hle' : (l.filter atOrigin).count (emptyLine 0) ≤ 1 :=
        Nat.le_trans (List.filter_sublist.count_le _) hl
      have hpos : 0 < emptyRuns l ↔ 0 < (l.filter atOrigin).count (emptyLine 0) := by
        rw [emptyRuns, List.count_pos_iff, List.count_pos_iff, mem_destutter_ne_iff]
      omega
    have hone : rs.count (emptyLine 0) ≤ 1 := by
      by_contra h
      exact htorn ⟨hpiece, by omega⟩
    rw [hcount hone, hcount (hperm.count_eq _ ▸ hone), hfilter.count_eq]
  · -- All ranges at the start of the document are that line, so the orders do not differ there.
    have hsame : rs.filter atOrigin = List.replicate (rs.filter atOrigin).length (emptyLine 0) := by
      refine List.eq_replicate_iff.2 ⟨rfl, fun r hr => ?_⟩
      obtain ⟨hr, horigin⟩ := List.mem_filter.1 hr
      rcases (hspan r hr).eq_of_atOrigin horigin with rfl | ⟨h, -⟩
      · exact absurd hr hpiece
      · exact h
    rw [hsame] at hfilter
    rw [emptyRuns, emptyRuns, List.perm_replicate.1 hfilter, ← hsame]

/-- With the empty lines in front there is only one run. -/
theorem emptyRuns_replicate_append (n : Nat) {rest : List Range} (h : emptyLine 0 ∉ rest) :
    emptyRuns (List.replicate (n + 1) (emptyLine 0) ++ rest) = 1 := by
  have hnone : emptyLine 0 ∉ rest.filter atOrigin := fun hmem => h (List.mem_filter.1 hmem).1
  have hfront (n : Nat) : (List.replicate n (emptyLine 0) ++ rest.filter atOrigin).destutter'
      (· ≠ ·) (emptyLine 0) = (rest.filter atOrigin).destutter' (· ≠ ·) (emptyLine 0) := by
    induction n with
    | zero => rfl
    | succ n ih =>
      rw [List.replicate_succ, List.cons_append, List.destutter'_cons_neg _ (not_not.2 rfl), ih]
  rw [emptyRuns, List.filter_append, List.filter_replicate_of_pos (by decide), List.replicate_succ,
    List.cons_append, List.destutter_cons', hfront]
  cases hrest : rest.filter atOrigin with
  | nil => rfl
  | cons r l =>
    rw [hrest] at hnone
    have hne : emptyLine 0 ≠ r := fun heq => hnone (heq ▸ List.mem_cons_self)
    have hgone : emptyLine 0 ∉ l.destutter' (· ≠ ·) r := fun hmem =>
      hnone (mem_destutter_ne_iff.1 (show emptyLine 0 ∈ (r :: l).destutter (· ≠ ·) from hmem))
    rw [List.destutter'_cons_pos _ hne, List.count_cons_self, List.count_eq_zero.2 hgone]

/-- With a piece of no characters between empty lines there are more runs. -/
theorem two_le_emptyRuns {rest : List Range} (h : emptyLine 0 ∈ rest) :
    2 ≤ emptyRuns (emptyLine 0 :: emptyAt .origin :: rest) := by
  have hmem : emptyLine 0 ∈ (rest.filter atOrigin).destutter' (· ≠ ·) (emptyAt .origin) :=
    mem_destutter_ne_iff.2 (List.mem_cons_of_mem (emptyAt .origin)
      (List.mem_filter.2 ⟨h, (by decide : (emptyLine 0).atOrigin = true)⟩))
  rw [emptyRuns, List.filter_cons_of_pos (by decide), List.filter_cons_of_pos (by decide),
    List.destutter_cons', List.destutter'_cons_pos _ (by decide), List.count_cons_self]
  exact Nat.succ_le_succ (List.count_pos_iff.2 hmem)

/-- Torn ranges can be listed with one run of the empty line, and with more. -/
theorem exists_perm_of_torn (h : Torn rs) :
    ∃ rs₁ rs₂, rs₁.Perm rs ∧ rs₂.Perm rs ∧ emptyRuns rs₁ = 1 ∧ 2 ≤ emptyRuns rs₂ := by
  obtain ⟨hpiece, hcount⟩ := h
  have hmem : emptyLine 0 ∈ rs := List.count_pos_iff.1 (by omega)
  have hfirst := List.perm_cons_erase hmem
  have hsecond := List.perm_cons_erase (a := emptyAt .origin) (l := rs.erase (emptyLine 0))
    ((List.mem_erase_of_ne (by decide)).2 hpiece)
  refine ⟨rs.filter (· == emptyLine 0) ++ rs.filter (fun r => !(r == emptyLine 0)),
    emptyLine 0 :: emptyAt .origin :: (rs.erase (emptyLine 0)).erase (emptyAt .origin),
    List.filter_append_perm _ rs, (hfirst.trans (hsecond.cons _)).symm, ?_, ?_⟩
  · have hnone : emptyLine 0 ∉ rs.filter (fun r => !(r == emptyLine 0)) := by simp
    obtain ⟨n, hn⟩ : ∃ n, rs.count (emptyLine 0) = n + 1 := ⟨_, (Nat.succ_pred (by omega)).symm⟩
    rw [List.filter_beq, hn]
    exact emptyRuns_replicate_append n hnone
  · refine two_le_emptyRuns (List.count_pos_iff.1 ?_)
    rw [List.count_erase_of_ne (by decide), List.count_erase_self]
    omega

end Range

namespace Document.Orderly

open OperatorKind

variable {rs' : List Range}

/-- The ranges apart from those that hold nothing at the start of the document are merged to the
same ranges in every order. -/
theorem mergeRanges_filter_perm (hrs : d.Orderly withBreak rs) (hperm : rs'.Perm rs) :
    d.mergeRanges (rs'.filter fun r => !r.atOrigin) =
      d.mergeRanges (rs.filter fun r => !r.atOrigin) :=
  mergeRanges_perm (hrs.of_subset fun _ hr => (List.mem_filter.1 hr).1) hrs.settled
    (hperm.filter _)

/-- What holds nothing at the start of the document makes no edit. -/
theorem deletions_eq (hrs : d.Orderly withBreak rs) :
    deletions (d.mergeRanges rs) =
      deletions (d.mergeRanges (rs.filter fun r => !r.atOrigin)) := by
  have hnone : ((rs.filter atOrigin).destutter (· ≠ ·)).filter (fun r => !r.isEmpty) = [] := by
    refine List.filter_eq_nil_iff.2 fun r hr => ?_
    have horigin := (List.mem_filter.1 (mem_destutter_ne_iff.1 hr)).2
    simp [(Bool.and_eq_true_iff.1 horigin).1]
  rw [hrs.mergeRanges_eq_append, deletions, List.filter_append, hnone, List.nil_append, deletions]

/-- **Every order makes the same batch of deletions.** -/
theorem deletions_perm (hrs : d.Orderly withBreak rs) (hperm : rs'.Perm rs) :
    deletions (d.mergeRanges rs') = deletions (d.mergeRanges rs) := by
  rw [(hrs.of_perm hperm).deletions_eq, hrs.deletions_eq, hrs.mergeRanges_filter_perm hperm]

/-- The entries begin with those of the empty first line. -/
theorem entriesOf_eq (hrs : d.Orderly withBreak rs) :
    d.entriesOf rs = List.replicate (emptyRuns rs) ⟨['\n'], true⟩ ++
      d.entriesOf (rs.filter fun r => !r.atOrigin) := by
  have hfront : ∀ r ∈ (rs.filter atOrigin).destutter (· ≠ ·),
      r = emptyAt .origin ∨ r = emptyLine 0 ∧ d.lineLen 0 = 0 := by
    intro r hr
    obtain ⟨hr, horigin⟩ := List.mem_filter.1 (mem_destutter_ne_iff.1 hr)
    exact (hrs.span r hr).eq_of_atOrigin horigin
  rw [entriesOf, hrs.mergeRanges_eq_append, List.map_append, List.filter_append,
    filter_entries_atOrigin hfront, emptyRuns, entriesOf]

/-- **Two orders make the same entries** if and only if they have as many runs of the empty first
line. -/
theorem entriesOf_eq_iff (hrs : d.Orderly withBreak rs) (hperm : rs'.Perm rs) :
    d.entriesOf rs' = d.entriesOf rs ↔ emptyRuns rs' = emptyRuns rs := by
  have hrest : d.entriesOf (rs'.filter fun r => !r.atOrigin) =
      d.entriesOf (rs.filter fun r => !r.atOrigin) := by
    rw [entriesOf, hrs.mergeRanges_filter_perm hperm, entriesOf]
  rw [(hrs.of_perm hperm).entriesOf_eq, hrs.entriesOf_eq, hrest, List.append_left_inj,
    List.replicate_inj]
  exact and_iff_left (.inr rfl)

end Document.Orderly

end ModalEdit
