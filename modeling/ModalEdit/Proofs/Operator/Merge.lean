import ModalEdit.Proofs.Span.WholeLines

/-!
# Merging ranges

`Document.mergeRanges` sorts ranges and merges those that overlap. Beside every merged range stands
its *head* here, where the first of its parts begins; the two make up a `Group`. Heads and ends go
together as they should: every group ends before the head of the next (`Document.pairwise_groups`),
and every range lies behind the head of a group and is covered by it
(`Document.exists_group_of_mem`). A merged range can begin before its head, though
(`Document.Form`).
-/

namespace ModalEdit

variable {d : Document} {withBreak : Bool} {rs : List Range}

/-- A merged range with its head. -/
structure Group where
  /-- Where the first of the parts begins. -/
  head : Position
  /-- The range that the parts have been merged to. -/
  range : Range

namespace Document

/-- Ranges that one text object finds. If they take line breaks, then they are all whole lines or
none of them reaches the last line. -/
structure Regular (d : Document) (withBreak : Bool) (rs : List Range) : Prop where
  /-- Every range is a piece of characters or whole lines. -/
  span : ∀ r ∈ rs, d.IsSpan withBreak r
  /-- Whole lines with the break in front of them are not mixed with pieces of characters. -/
  unmixed : withBreak = true → (∀ r ∈ rs, r.lines ≠ none) ∨
    ∀ r ∈ rs, ∀ l, r.lines = some l → l.last < d.lastLine

/-- What a merged range looks like that begins with the head `h`. -/
inductive Form (d : Document) (withBreak : Bool) (rs : List Range) (h : Position) : Range → Prop
  /-- A piece of characters begins with its head. -/
  | chars {q r : Range} : d.IsPiece q → q.start = h → r ∈ rs → r.lines = none →
    Form d withBreak rs h q
  /-- Whole lines begin with the first line of the part at the head, and they end with the last line
  of some part. -/
  | lines {first last first' last' : Nat} :
    first ≤ last → last ≤ last' → first ≤ first' → first' ≤ last' → last' ≤ d.lastLine →
    d.linesSpan first last withBreak ∈ rs → (d.linesSpan first last withBreak).start = h →
    d.linesSpan first' last' withBreak ∈ rs →
    Form d withBreak rs h (d.linesSpan first last' withBreak)

/-- What is known of a group of some of the ranges. -/
structure Gathers (d : Document) (withBreak : Bool) (rs : List Range) (g : Group) : Prop where
  /-- The shape of the merged range. -/
  form : d.Form withBreak rs g.head g.range
  /-- The first part begins with the head. -/
  head : ∃ r ∈ rs, r.start = g.head ∧ r.stop ≤ g.range.stop
  /-- Some part ends where the merged range ends. -/
  stop : ∃ r ∈ rs, r.stop = g.range.stop
  /-- The parts hang together. -/
  linked : ∀ p, g.head < p → p < g.range.stop → ∃ r ∈ rs, r.start < p ∧ p < r.stop

/-! ### Merging one more range -/

/-- A piece of characters is what ranges merge to of which one is a piece of characters. -/
theorem Fits.isPiece_union {r q : Range} (hr : d.Fits r) (hq : d.Fits q)
    (h : r.lines = none ∨ q.lines = none) : d.IsPiece (r.union d q) := by
  rw [Range.union_of_lines_eq_none h hr.le]
  exact ⟨⟨hr.start, inBounds_max hr.stop hq.stop,
    Position.le_trans hr.le (Position.le_max_left _ _)⟩, rfl⟩

theorem IsSpan.union {r q : Range} (hr : d.IsSpan withBreak r) (hq : d.IsSpan withBreak q) :
    d.IsSpan withBreak (r.union d q) := by
  have hfits := hr.fits
  cases hr with
  | chars hr => exact .chars (hfits.isPiece_union hq.fits (.inl hr.lines))
  | lines hle hlast =>
    cases hq with
    | chars hq => exact .chars (hfits.isPiece_union hq.toFits (.inr hq.lines))
    | lines hle' hlast' =>
      rw [Range.union_linesSpan hle hlast hle' hlast']
      exact .lines (by omega) (by omega)

theorem Form.isSpan {h : Position} {q : Range} (hq : d.Form withBreak rs h q) :
    d.IsSpan withBreak q := by
  cases hq with
  | chars hq => exact .chars hq
  | lines hle hle' _ _ hlast => exact .lines (Nat.le_trans hle hle') hlast

theorem Form.of_mem {r : Range} (hr : r ∈ rs) (hspan : d.IsSpan withBreak r) :
    d.Form withBreak rs r.start r := by
  cases hspan with
  | chars h => exact .chars h rfl hr h.lines
  | lines hle hlast =>
    exact .lines hle (Nat.le_refl _) (Nat.le_refl _) hle hlast hr rfl hr

/-- Where no lines reach the last line with a break, a merged range begins with its head. -/
theorem Form.start_eq {h : Position} {q : Range} (hq : d.Form withBreak rs h q)
    (hlines : withBreak = true → ∀ r ∈ rs, ∀ l, r.lines = some l → l.last < d.lastLine) :
    q.start = h := by
  cases hq with
  | chars _ hstart => exact hstart
  | lines hle hle' hfirst hle'' hlast hmem hstart hmem' =>
    rw [← hstart, start_linesSpan (Nat.le_trans hle hle') hlast,
      start_linesSpan hle (Nat.le_trans hle' hlast)]
    cases withBreak with
    | false => simp
    | true =>
      have := hlines rfl _ hmem' _ (lines_linesSpan_of_le hle'' hlast)
      dsimp only at this
      rw [if_neg (by omega), if_neg (by omega)]

/-- **Merging a range that does not begin before the head keeps the shape.** -/
theorem Form.union (hrs : d.Regular withBreak rs) {h : Position} {q r : Range}
    (hq : d.Form withBreak rs h q) (hr : r ∈ rs) (hle : h ≤ r.start) :
    d.Form withBreak rs h (q.union d r) := by
  have hspan := hq.isSpan.union (hrs.span r hr)
  have hpiece {r' : Range} (hlines : q.lines = none ∨ r.lines = none) (hstart : q.start = h)
      (hr' : r' ∈ rs) (hnone : r'.lines = none) : d.Form withBreak rs h (q.union d r) := by
    have hunion := Range.union_of_lines_eq_none (d := d) hlines hq.isSpan.fits.le
    exact .chars ⟨hspan.fits, by rw [hunion]⟩ (by rw [hunion]; exact hstart) hr' hnone
  have hspan' := hrs.span r hr
  cases hspan' with
  | chars hchars =>
    -- A piece of characters among the ranges keeps all lines from reaching the last one.
    refine hpiece (.inr hchars.lines) (hq.start_eq fun hbreak => ?_) hr hchars.lines
    exact (hrs.unmixed hbreak).resolve_left fun hall => hall r hr hchars.lines
  | @lines f l hle' hlast' =>
    cases hq with
    | chars hchars hstart hr' hnone => exact hpiece (.inl hchars.lines) hstart hr' hnone
    | @lines first last first' last' h₁ h₂ h₃ h₄ hlast hmem hstart hmem' =>
      rw [Range.union_linesSpan (Nat.le_trans h₁ h₂) hlast hle' hlast']
      -- The part that reaches further down ends the merged range.
      have hend : ∃ f', min first f ≤ f' ∧ f' ≤ max last' l ∧
          d.linesSpan f' (max last' l) withBreak ∈ rs := by
        rcases Nat.le_total last' l with h | h
        · exact ⟨f, Nat.min_le_right _ _, by omega, (Nat.max_eq_right h).symm ▸ hr⟩
        · exact ⟨first', by omega, by omega, (Nat.max_eq_left h).symm ▸ hmem'⟩
      obtain ⟨f', hf', hf'', hmem''⟩ := hend
      by_cases hfirst : first ≤ f
      · rw [Nat.min_eq_left hfirst] at hf' ⊢
        exact .lines h₁ (by omega) hf' hf'' (by omega) hmem hstart hmem''
      · -- The range begins with an earlier line, and yet not before the head: the line is empty.
        have hback : (d.linesSpan f l withBreak).start ≤ h :=
          hstart ▸ start_linesSpan_mono hle' hlast' h₁ (by omega) (Nat.lt_of_not_le hfirst)
        rw [Nat.min_eq_right (by omega)] at hf' ⊢
        exact .lines hle' (by omega) hf' hf'' (by omega) hr (Position.le_antisymm hback hle) hmem''

theorem Gathers.of_mem (hrs : d.Regular withBreak rs) {r : Range} (hr : r ∈ rs) :
    d.Gathers withBreak rs ⟨r.start, r⟩ where
  form := .of_mem hr (hrs.span r hr)
  head := ⟨r, hr, rfl, Position.le_refl _⟩
  stop := ⟨r, hr, rfl⟩
  linked _ hstart hstop := ⟨r, hr, hstart, hstop⟩

/-- **Merging one more range.** -/
theorem Gathers.union (hrs : d.Regular withBreak rs) {h : Position} {q r : Range}
    (hq : d.Gathers withBreak rs ⟨h, q⟩) (hr : r ∈ rs) (hle : h ≤ r.start)
    (hover : r.start < q.stop ∨ r = q) : d.Gathers withBreak rs ⟨h, q.union d r⟩ := by
  have hstop : (q.union d r).stop = max q.stop r.stop :=
    Range.stop_union hq.form.isSpan (hrs.span r hr)
  refine ⟨hq.form.union hrs hr hle, ?_, ?_, ?_⟩
  · obtain ⟨r', hr', hstart, hle'⟩ := hq.head
    exact ⟨r', hr', hstart, hstop ▸ Position.le_trans hle' (Position.le_max_left _ _)⟩
  · rcases Position.le_total q.stop r.stop with h | h
    · exact ⟨r, hr, (hstop.trans (Position.max_eq_right h)).symm⟩
    · obtain ⟨r', hr', hstop'⟩ := hq.stop
      exact ⟨r', hr', hstop'.trans (hstop.trans (Position.max_eq_left h)).symm⟩
  · intro p hp hp'
    by_cases hinner : p < q.stop
    · exact hq.linked p hp hinner
    · -- The place lies behind the old end, so the new range has brought it in.
      have hold : q.stop ≤ p := Position.not_lt.1 hinner
      have hnew : p < r.stop := by
        change p < (q.union d r).stop at hp'
        rw [hstop] at hp'
        rcases Position.le_total q.stop r.stop with h | h
        · rwa [Position.max_eq_right h] at hp'
        · rw [Position.max_eq_left h] at hp'
          exact absurd hp' hinner
      rcases hover with hover | hsame
      · exact ⟨r, hr, Position.lt_of_lt_of_le hover hold, hnew⟩
      · rw [hsame] at hnew
        exact absurd hnew hinner

theorem Gathers.fits {g : Group} (hg : d.Gathers withBreak rs g) : d.Fits g.range :=
  hg.form.isSpan.fits

/-! ### All groups -/

end Document

/-- The groups of a merge: the merged ranges, each with its head. -/
def Group.mergeFrom (d : Document) (g : Group) : List Range → List Group
  | [] => [g]
  | r :: rs =>
    if r.start < g.range.stop ∨ r = g.range then mergeFrom d ⟨g.head, g.range.union d r⟩ rs
    else g :: mergeFrom d ⟨r.start, r⟩ rs

namespace Group

variable {g : Group} {rest : List Range}

theorem map_range_mergeFrom (g : Group) (rest : List Range) :
    (g.mergeFrom d rest).map (·.range) = g.range.mergeFrom d rest := by
  fun_induction mergeFrom d g rest with
  | case1 g => rfl
  | case2 g r rest h ih => rw [ih, Range.mergeFrom, if_pos h]
  | case3 g r rest h ih => rw [List.map_cons, ih, Range.mergeFrom, if_neg h]

theorem gathers_of_mem_mergeFrom (hrs : d.Regular withBreak rs) (hg : d.Gathers withBreak rs g)
    (hrest : ∀ r ∈ rest, r ∈ rs ∧ g.head ≤ r.start)
    (hsorted : rest.Pairwise fun r r' => r.start ≤ r'.start) :
    ∀ g' ∈ g.mergeFrom d rest, d.Gathers withBreak rs g' := by
  fun_induction mergeFrom d g rest with
  | case1 g => simpa using hg
  | case2 g r rest h ih =>
    obtain ⟨hr, hrest⟩ := List.forall_mem_cons.1 hrest
    exact ih (hg.union hrs hr.1 hr.2 h) hrest hsorted.of_cons
  | case3 g r rest _ ih =>
    obtain ⟨hr, hrest⟩ := List.forall_mem_cons.1 hrest
    obtain ⟨hfirst, hsorted⟩ := List.pairwise_cons.1 hsorted
    refine List.forall_mem_cons.2 ⟨hg, ih (.of_mem hrs hr.1) (fun r' hr' => ?_) hsorted⟩
    exact ⟨(hrest r' hr').1, hfirst r' hr'⟩

/-- No head comes before the first one. -/
theorem head_le_of_mem_mergeFrom (hrest : ∀ r ∈ rest, g.head ≤ r.start)
    (hsorted : rest.Pairwise fun r r' => r.start ≤ r'.start) :
    ∀ g' ∈ g.mergeFrom d rest, g.head ≤ g'.head := by
  fun_induction mergeFrom d g rest with
  | case1 g => simpa using Position.le_refl _
  | case2 g r rest h ih =>
    exact ih (List.forall_mem_cons.1 hrest).2 hsorted.of_cons
  | case3 g r rest _ ih =>
    obtain ⟨hr, -⟩ := List.forall_mem_cons.1 hrest
    obtain ⟨hfirst, hsorted⟩ := List.pairwise_cons.1 hsorted
    refine List.forall_mem_cons.2 ⟨Position.le_refl _, fun g' hg' => ?_⟩
    exact Position.le_trans hr (ih hfirst hsorted g' hg')

/-- Every group ends before the head of the next. -/
theorem pairwise_mergeFrom (hrest : ∀ r ∈ rest, g.head ≤ r.start)
    (hsorted : rest.Pairwise fun r r' => r.start ≤ r'.start) :
    (g.mergeFrom d rest).Pairwise fun g g' => g.range.stop ≤ g'.head := by
  fun_induction mergeFrom d g rest with
  | case1 g => exact List.pairwise_singleton _ _
  | case2 g r rest h ih => exact ih (List.forall_mem_cons.1 hrest).2 hsorted.of_cons
  | case3 g r rest h ih =>
    obtain ⟨hfirst, hsorted⟩ := List.pairwise_cons.1 hsorted
    refine List.pairwise_cons.2 ⟨fun g' hg' => ?_, ih hfirst hsorted⟩
    have hstop : g.range.stop ≤ r.start := Position.not_lt.1 fun hlt => h (.inl hlt)
    exact Position.le_trans hstop (head_le_of_mem_mergeFrom hfirst hsorted g' hg')

/-- The first group covers what it begins with. -/
theorem exists_head_mergeFrom (hrs : d.Regular withBreak rs) (hg : d.Gathers withBreak rs g)
    (hrest : ∀ r ∈ rest, r ∈ rs ∧ g.head ≤ r.start) :
    ∃ g' ∈ g.mergeFrom d rest, g'.head = g.head ∧ g'.range.Covers g.range := by
  fun_induction mergeFrom d g rest with
  | case1 g => exact ⟨g, List.mem_singleton_self g, rfl, .refl _⟩
  | case2 g r rest h ih =>
    obtain ⟨hr, hrest⟩ := List.forall_mem_cons.1 hrest
    obtain ⟨g', hg', hhead, hcovers⟩ := ih (hg.union hrs hr.1 hr.2 h) hrest
    exact ⟨g', hg', hhead, hcovers.trans (Range.covers_union_left hg.form.isSpan (hrs.span r hr.1))⟩
  | case3 g r rest _ ih => exact ⟨g, List.mem_cons_self, rfl, .refl _⟩

/-- Every range that is merged lies behind the head of a group and is covered by it. -/
theorem exists_mem_mergeFrom (hrs : d.Regular withBreak rs) (hg : d.Gathers withBreak rs g)
    (hrest : ∀ r ∈ rest, r ∈ rs ∧ g.head ≤ r.start)
    (hsorted : rest.Pairwise fun r r' => r.start ≤ r'.start) :
    ∀ r ∈ rest, ∃ g' ∈ g.mergeFrom d rest, g'.head ≤ r.start ∧ g'.range.Covers r := by
  fun_induction mergeFrom d g rest with
  | case1 g => simp
  | case2 g r rest h ih =>
    obtain ⟨hr, hrest⟩ := List.forall_mem_cons.1 hrest
    have hunion := hg.union hrs hr.1 hr.2 h
    refine List.forall_mem_cons.2 ⟨?_, ih hunion hrest hsorted.of_cons⟩
    obtain ⟨g', hg', hhead, hcovers⟩ := exists_head_mergeFrom hrs hunion hrest
    exact ⟨g', hg', hhead ▸ hr.2,
      hcovers.trans (Range.covers_union_right hg.form.isSpan (hrs.span r hr.1))⟩
  | case3 g r rest _ ih =>
    obtain ⟨hr, hrest⟩ := List.forall_mem_cons.1 hrest
    obtain ⟨hfirst, hsorted⟩ := List.pairwise_cons.1 hsorted
    have hrest' : ∀ r' ∈ rest, r' ∈ rs ∧ r.start ≤ r'.start := fun r' hr' =>
      ⟨(hrest r' hr').1, hfirst r' hr'⟩
    have hnew : d.Gathers withBreak rs ⟨r.start, r⟩ := .of_mem hrs hr.1
    refine List.forall_mem_cons.2 ⟨?_, fun r' hr' => ?_⟩
    · obtain ⟨g', hg', hhead, hcovers⟩ := exists_head_mergeFrom hrs hnew hrest'
      exact ⟨g', List.mem_cons_of_mem _ hg', hhead ▸ Position.le_refl _, hcovers⟩
    · obtain ⟨g', hg', h⟩ := ih hnew hrest' hsorted r' hr'
      exact ⟨g', List.mem_cons_of_mem _ hg', h⟩

end Group

theorem Range.precedes_trans (r s t : Range) (h : r.precedes s = true) (h' : s.precedes t = true) :
    r.precedes t = true := by
  simp only [precedes, Bool.or_eq_true, Bool.and_eq_true, decide_eq_true_eq, beq_iff_eq,
    Position.lt_def, Position.le_def, Position.ext_iff'] at *
  omega

theorem Range.precedes_total (r s : Range) : (r.precedes s || s.precedes r) = true := by
  simp only [precedes, Bool.or_eq_true, Bool.and_eq_true, decide_eq_true_eq, beq_iff_eq,
    Position.lt_def, Position.le_def, Position.ext_iff']
  omega

theorem Range.start_le_of_precedes {r s : Range} (h : r.precedes s = true) : r.start ≤ s.start := by
  simp only [precedes, Bool.or_eq_true, Bool.and_eq_true, decide_eq_true_eq, beq_iff_eq] at h
  rcases h with h | ⟨h, -⟩
  · exact Position.le_of_lt h
  · exact h ▸ Position.le_refl _

/-- Of two members of a list in order one comes first. -/
theorem rel_or_rel_of_mem {α : Type} {R : α → α → Prop} {l : List α} (h : l.Pairwise R) {a b : α}
    (ha : a ∈ l) (hb : b ∈ l) (hne : a ≠ b) : R a b ∨ R b a := by
  have : Std.Symm fun a b => R a b ∨ R b a := ⟨fun _ _ => Or.symm⟩
  have h : l.Pairwise fun a b => R a b ∨ R b a := h.imp Or.inl
  exact h.forall ha hb hne

namespace Document

/-- The groups that ranges are merged to. -/
def groups (d : Document) (rs : List Range) : List Group :=
  match rs.mergeSort Range.precedes with
  | [] => []
  | r :: rs => Group.mergeFrom d ⟨r.start, r⟩ rs

theorem map_range_groups (rs : List Range) : (d.groups rs).map (·.range) = d.mergeRanges rs := by
  unfold groups mergeRanges
  cases rs.mergeSort Range.precedes with
  | nil => rfl
  | cons r rest => exact Group.map_range_mergeFrom _ _

theorem pairwise_start_mergeSort (rs : List Range) :
    (rs.mergeSort Range.precedes).Pairwise fun r r' => r.start ≤ r'.start :=
  (List.pairwise_mergeSort Range.precedes_trans Range.precedes_total rs).imp
    Range.start_le_of_precedes

theorem gathers_of_mem_groups (hrs : d.Regular withBreak rs) :
    ∀ g ∈ d.groups rs, d.Gathers withBreak rs g := by
  have hsorted := pairwise_start_mergeSort rs
  have hmem : ∀ r ∈ rs.mergeSort Range.precedes, r ∈ rs := fun r => List.mem_mergeSort.1
  unfold groups
  split
  · simp
  · rename_i r rest heq
    rw [heq] at hsorted hmem
    obtain ⟨hr, hrest⟩ := List.forall_mem_cons.1 hmem
    obtain ⟨hfirst, hsorted⟩ := List.pairwise_cons.1 hsorted
    exact Group.gathers_of_mem_mergeFrom hrs (.of_mem hrs hr)
      (fun r' hr' => ⟨hrest r' hr', hfirst r' hr'⟩) hsorted

/-- **Every group ends before the head of the next.** -/
theorem pairwise_groups (rs : List Range) :
    (d.groups rs).Pairwise fun g g' => g.range.stop ≤ g'.head := by
  have hsorted := pairwise_start_mergeSort rs
  unfold groups
  split
  · exact .nil
  · rename_i r rest heq
    rw [heq] at hsorted
    obtain ⟨hfirst, hsorted⟩ := List.pairwise_cons.1 hsorted
    exact Group.pairwise_mergeFrom hfirst hsorted

theorem apart_of_mem_groups {g g' : Group} (hg : g ∈ d.groups rs) (hg' : g' ∈ d.groups rs)
    (hne : g ≠ g') : g.range.stop ≤ g'.head ∨ g'.range.stop ≤ g.head :=
  rel_or_rel_of_mem (pairwise_groups rs) hg hg' hne

/-- **Every range lies behind the head of a group and is covered by it.** -/
theorem exists_group_of_mem (hrs : d.Regular withBreak rs) {r : Range} (hr : r ∈ rs) :
    ∃ g ∈ d.groups rs, g.head ≤ r.start ∧ g.range.Covers r := by
  have hsorted := pairwise_start_mergeSort rs
  have hmem : ∀ r' ∈ rs.mergeSort Range.precedes, r' ∈ rs := fun r' => List.mem_mergeSort.1
  have hr : r ∈ rs.mergeSort Range.precedes := List.mem_mergeSort.2 hr
  unfold groups
  split
  · rename_i heq
    rw [heq] at hr
    cases hr
  · rename_i r₁ rest heq
    rw [heq] at hsorted hmem hr
    obtain ⟨hr₁, hrest⟩ := List.forall_mem_cons.1 hmem
    obtain ⟨hfirst, hsorted⟩ := List.pairwise_cons.1 hsorted
    have hrest' : ∀ r' ∈ rest, r' ∈ rs ∧ r₁.start ≤ r'.start := fun r' hr' =>
      ⟨hrest r' hr', hfirst r' hr'⟩
    have hnew : d.Gathers withBreak rs ⟨r₁.start, r₁⟩ := .of_mem hrs hr₁
    rcases List.mem_cons.1 hr with rfl | hr
    · obtain ⟨g, hg, hhead, hcovers⟩ := Group.exists_head_mergeFrom hrs hnew hrest'
      exact ⟨g, hg, hhead ▸ Position.le_refl _, hcovers⟩
    · exact Group.exists_mem_mergeFrom hrs hnew hrest' hsorted r hr

end Document

end ModalEdit
