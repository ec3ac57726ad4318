import ModalEdit.Proofs.Command.Invariant

/-!
# Selections that cover text objects

In a visual mode a text object is looked for at the head of every selection, and what is found takes
the place of the selection. A paragraph stands for lines and turns the mode to lines; all else is a
piece of text and leaves the mode as it is. Either way the selections look as the mode asks
(`Step.selectObject_leads`).
-/

namespace ModalEdit

variable {rule : CursorRule} {s : State} {d : Document}

/-! ### Covering what is found -/

theorem length_coverRanges (d : Document) (linewise : Bool)
    (found : List (Selection × Option ObjectRange)) :
    (coverRanges d linewise found).1.length = found.length := by
  fun_induction coverRanges d linewise found with
  | case1 => rfl
  | case2 linewise sel r rest l hl sels lines hrest ih => simpa [hrest] using ih
  | case3 linewise sel r rest hl sels lines hrest sel' ih => simpa [hrest] using ih
  | case4 linewise sel rest sels lines hrest ih => simpa [hrest] using ih

theorem Document.coversLines_of_lines {withBreak : Bool} {r : Range} {l : LineSpan}
    (hr : d.IsSpan withBreak r) (hl : r.lines = some l) :
    d.CoversLines (d.lineCovering l.first l.last) := by
  have hle := hr.lines_le hl
  refine ⟨l.first, l.last, ?_, ?_, rfl⟩
  · exact lt_lineCount (by omega)
  · exact lt_lineCount hle.2

/-- Where all is widened to lines, all that is selected is whole lines. -/
theorem coversLines_coverRanges {found : List (Selection × Option ObjectRange)}
    (hsels : ∀ t ∈ found, t.2 = none → d.CoversLines t.1)
    (hspan : ∀ t ∈ found, ∀ r, t.2 = some r → ∃ withBreak, d.IsSpan withBreak r.range) :
    (coverRanges d true found).2 = true ∧
      ∀ sel ∈ (coverRanges d true found).1, d.CoversLines sel := by
  induction found with
  | nil => simp [coverRanges]
  | cons t rest ih =>
    obtain ⟨hsel, hsels⟩ := List.forall_mem_cons.1 hsels
    obtain ⟨hr, hspan⟩ := List.forall_mem_cons.1 hspan
    obtain ⟨hlines, hrest⟩ := ih hsels hspan
    obtain ⟨sel, r⟩ := t
    cases r with
    | none => exact ⟨hlines, List.forall_mem_cons.2 ⟨hsel rfl, hrest⟩⟩
    | some r =>
      obtain ⟨withBreak, hr⟩ := hr r rfl
      simp only [coverRanges]
      cases hl : r.range.lines with
      | some l =>
        exact ⟨hlines, List.forall_mem_cons.2 ⟨Document.coversLines_of_lines hr hl, hrest⟩⟩
      | none =>
        refine ⟨hlines, List.forall_mem_cons.2 ⟨?_, hrest⟩⟩
        exact ⟨_, _, hr.fits.start.1, (Document.inBounds_stepBack hr.fits.stop).1, rfl⟩

/-- The first paragraph turns all that follow into lines. -/
theorem coversLines_of_paragraphs {found : List (Selection × Option ObjectRange)}
    (hne : found ≠ []) (hlines : ∀ t ∈ found, ∃ r l, t.2 = some r ∧ r.range.lines = some l)
    (hspan : ∀ t ∈ found, ∀ r, t.2 = some r → ∃ withBreak, d.IsSpan withBreak r.range) :
    (coverRanges d false found).2 = true ∧
      ∀ sel ∈ (coverRanges d false found).1, d.CoversLines sel := by
  obtain ⟨⟨sel, res⟩, rest, rfl⟩ := List.exists_cons_of_ne_nil hne
  obtain ⟨⟨r, l, hres, hl⟩, hrestLines⟩ := List.forall_mem_cons.1 hlines
  obtain ⟨hfirst, hrestSpan⟩ := List.forall_mem_cons.1 hspan
  obtain rfl : res = some r := hres
  obtain ⟨withBreak, hr⟩ := hfirst r rfl
  have hsels : ∀ t ∈ rest, t.2 = none → d.CoversLines t.1 := by
    intro t ht hnone
    obtain ⟨r, l, hr, -⟩ := hrestLines t ht
    rw [hnone] at hr
    cases hr
  have hrest := coversLines_coverRanges hsels hrestSpan
  simp only [coverRanges, hl]
  exact ⟨hrest.1, List.forall_mem_cons.2 ⟨Document.coversLines_of_lines hr hl, hrest.2⟩⟩

/-- Where no range stands for lines, all that is selected is characters. -/
theorem holds_coverRanges {found : List (Selection × Option ObjectRange)}
    (hsels : ∀ t ∈ found, t.2 = none → d.Holds t.1)
    (hpiece : ∀ t ∈ found, ∀ r, t.2 = some r → d.IsPiece r.range) :
    (coverRanges d false found).2 = false ∧ ∀ sel ∈ (coverRanges d false found).1, d.Holds sel := by
  induction found with
  | nil => simp [coverRanges]
  | cons t rest ih =>
    obtain ⟨hsel, hsels⟩ := List.forall_mem_cons.1 hsels
    obtain ⟨hr, hpiece⟩ := List.forall_mem_cons.1 hpiece
    obtain ⟨hlines, hrest⟩ := ih hsels hpiece
    obtain ⟨sel, r⟩ := t
    cases r with
    | none => exact ⟨hlines, List.forall_mem_cons.2 ⟨hsel rfl, hrest⟩⟩
    | some r =>
      have hr := hr r rfl
      simp only [coverRanges, hr.lines]
      exact ⟨hlines, List.forall_mem_cons.2 ⟨⟨hr.start, hr.stop⟩, hrest⟩⟩

/-! ### What is found at the heads -/

theorem exists_of_mem_structures {o : TextObject} (h : o ∈ TextObject.structures) :
    ∃ name pattern kind around, o = .structural name pattern kind around := by
  obtain ⟨name, c, kind, around, rfl⟩ := TextObject.exists_ofStructure h
  exact ⟨_, _, _, _, rfl⟩

namespace State

variable {keys : List Key} {found : List (Selection × Option ObjectRange)}

/-- What is found at the heads: for every selection what the object finds there. -/
theorem rangesAtHeads_spec {o : TextObject} (h : s.rangesAtHeads d keys o = some found) :
    found.length = s.selections.length ∧ (∃ t ∈ found, t.2.isSome) ∧
      ∀ t ∈ found, t.1 ∈ s.selections ∧
        t.2 = (o.compute d ⟨none, s.session.lastFind⟩ (s.head d t.1) keys).result? := by
  simp only [rangesAtHeads] at h
  split at h <;> cases h
  rename_i hany
  refine ⟨by simp [objectsAtHeads], List.any_eq_true.1 hany, fun t ht => ?_⟩
  simp only [objectsAtHeads, List.map_map, List.mem_map, Function.comp_apply] at ht
  obtain ⟨sel, hsel, rfl⟩ := ht
  exact ⟨hsel, rfl⟩

theorem isSpan_of_rangesAtHeads {o : TextObject} (h : s.rangesAtHeads d keys o = some found) :
    ∀ t ∈ found, ∀ r, t.2 = some r → ∃ withBreak, d.IsSpan withBreak r.range := by
  intro t ht r hr
  obtain ⟨-, -, hfound⟩ := rangesAtHeads_spec h
  obtain ⟨rest, hr⟩ := Found.exists_of_result? ((hfound t ht).2.symm.trans hr)
  exact ⟨_, TextObject.isSpan_of_compute hr⟩

/-- A paragraph is found at every head or at none. -/
theorem paragraph_of_rangesAtHeads {name : String} {pattern : Pattern} {around : Bool}
    (h : s.rangesAtHeads d keys (.structural name pattern .paragraph around) = some found) :
    ∀ t ∈ found, ∃ r l, t.2 = some r ∧ r.range.lines = some l := by
  obtain ⟨-, ⟨t₀, ht₀, hsome⟩, hfound⟩ := rangesAtHeads_spec h
  obtain ⟨r₀, hr₀⟩ := Option.isSome_iff_exists.1 hsome
  rw [(hfound t₀ ht₀).2] at hr₀
  obtain ⟨rest, hr₀⟩ := Found.exists_of_result? hr₀
  intro t ht
  rw [(hfound t ht).2]
  simp only [TextObject.compute, Found.ofMatch] at hr₀ ⊢
  cases hparse : pattern.parse keys with
  | full captured remainder => exact ⟨_, _, rfl, rfl⟩
  | partly => simp [hparse] at hr₀
  | none => simp [hparse] at hr₀

/-- All structures but paragraphs are pieces of text. -/
theorem isPiece_of_rangesAtHeads {name : String} {pattern : Pattern} {kind : Structure}
    {around : Bool} (hkind : kind ≠ .paragraph)
    (h : s.rangesAtHeads d keys (.structural name pattern kind around) = some found) :
    ∀ t ∈ found, ∀ r, t.2 = some r → d.IsPiece r.range := by
  intro t ht r hr
  obtain ⟨-, -, hfound⟩ := rangesAtHeads_spec h
  obtain ⟨rest, hr⟩ := Found.exists_of_result? ((hfound t ht).2.symm.trans hr)
  simp only [TextObject.compute] at hr
  obtain ⟨key, hr⟩ := Found.ofMatch_eq_some hr
  obtain ⟨q, hq, rfl⟩ := Option.map_eq_some_iff.1 hr
  exact Structure.isPiece_span hkind hq

/-- The selections that cover what an object found at the heads look right. -/
theorem suits_coverRanges (hs : s.Sound rule d) (hmode : s.mode.isVisual = true) {o : TextObject}
    (ho : o ∈ TextObject.structures) (h : s.rangesAtHeads d keys o = some found) :
    ∀ sel ∈ (coverRanges d (s.mode == .visualLine) found).1, sel.Suits rule d
      (if (coverRanges d (s.mode == .visualLine) found).2 then .visualLine else s.mode) := by
  obtain ⟨hlen, -, hfound⟩ := rangesAtHeads_spec h
  have hspan := isSpan_of_rangesAtHeads h
  have hcases : s.mode = .visual ∨ s.mode = .visualLine := by
    cases hm : s.mode <;> simp [hm, Mode.isVisual] at hmode ⊢
  rcases hcases with hm | hm
  · obtain ⟨name, pattern, kind, around, rfl⟩ := exists_of_mem_structures ho
    have hvisual : (s.mode == .visualLine) = false := by rw [hm]; rfl
    rw [hvisual]
    by_cases hkind : kind = .paragraph
    · subst hkind
      have hne : found ≠ [] := by
        rw [← List.length_pos_iff, hlen]
        exact hs.length_pos
      have hall := coversLines_of_paragraphs hne (paragraph_of_rangesAtHeads h) hspan
      rw [hall.1]
      exact hall.2
    · have hsels : ∀ t ∈ found, t.2 = none → d.Holds t.1 :=
        fun t ht _ => hs.holds (by simp [hm]) (hfound t ht).1
      have hall := holds_coverRanges hsels (isPiece_of_rangesAtHeads hkind h)
      rw [hall.1, hm]
      exact hall.2
  · have hvisual : (s.mode == .visualLine) = true := by rw [hm]; rfl
    have hsels : ∀ t ∈ found, t.2 = none → d.CoversLines t.1 := by
      intro t ht _
      have hlines := hs.suits t.1 (hfound t ht).1
      rwa [hm] at hlines
    have hall := coversLines_coverRanges hsels hspan
    rw [hvisual, hall.1]
    exact hall.2

end State

theorem Step.selectObject_leads (hs : s.Sound rule d) (hmode : s.mode.isVisual = true)
    (keys : List Key) {E : EditorError → State → Prop} :
    (selectObject d keys).Ends s (fun _ => s.Leads rule d []) E := by
  simp only [selectObject, ends_bind, ends_get]
  cases hfound : TextObject.structures.findSome? (s.rangesAtHeads d keys) with
  | some found =>
    obtain ⟨o, ho, h⟩ := List.exists_of_findSome?_eq_some hfound
    have hsuits := State.suits_coverRanges hs hmode ho h
    have hlen : (coverRanges d (s.mode == .visualLine) found).1.length = s.selections.length :=
      (length_coverRanges d _ found).trans (State.rangesAtHeads_spec h).1
    simp only [ends_bind, ends_modify]
    split
    · rename_i hlines
      rw [if_pos hlines] at hsuits
      exact .of_selected hs rfl rfl hlen rfl rfl hsuits
    · rename_i hlines
      rw [if_neg hlines] at hsuits
      exact .of_selected hs rfl rfl hlen rfl hmode hsuits
  | none =>
    simp only
    split <;> exact .refl hs

end ModalEdit
