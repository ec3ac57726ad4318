import ModalEdit.Proofs.Text.Run
import ModalEdit.Walk.Motion

/-!
# Where walks lead

Every walk leads to a position in bounds, except for those up and down, which keep the column and
only stay within the lines (`Walk.target_of_take?`).
-/

namespace ModalEdit

namespace Document

variable {d : Document}

theorem firstNonBlank_le (i : Nat) : d.firstNonBlank i ≤ d.lineLen i :=
  (List.takeWhile_sublist _).length_le

theorem inBounds_firstNonBlank {i : Nat} (h : i < d.lineCount) :
    d.InBounds ⟨i, d.firstNonBlank i⟩ := ⟨h, firstNonBlank_le i⟩

/-! ### Steps by character and by line -/

theorem inBounds_left (p : Position) : d.InBounds (d.left p) := by
  have h := (d.inBounds_clamp p).2
  exact ⟨d.clamp_line_lt p, by simp only [left]; omega⟩

theorem inBounds_right (p : Position) : d.InBounds (d.right p) :=
  ⟨d.clamp_line_lt p, Nat.min_le_right _ _⟩

theorem inBounds_toLineStart (p : Position) : d.InBounds (d.toLineStart p) :=
  inBounds_lineStart (d.clamp_line_lt p)

theorem inBounds_toLineEnd (p : Position) : d.InBounds (d.toLineEnd p) :=
  inBounds_lineEnd (d.clamp_line_lt p)

theorem inBounds_toFirstNonBlank (p : Position) : d.InBounds (d.toFirstNonBlank p) :=
  inBounds_firstNonBlank (d.clamp_line_lt p)

theorem inBounds_documentStart : d.InBounds d.documentStart :=
  inBounds_firstNonBlank d.lineCount_pos

theorem inBounds_documentEnd : d.InBounds d.documentEnd := inBounds_firstNonBlank d.lastLine_lt

/-! ### Steps by word -/

theorem mem_linesAfter {i j : Nat} : j ∈ d.linesAfter i ↔ i < j ∧ j < d.lineCount := by
  simp only [linesAfter, List.mem_range'_1]
  omega

theorem mem_linesBefore {i j : Nat} : j ∈ linesBefore i ↔ j < i := by
  simp [linesBefore]

theorem inBounds_max {p q : Position} (hp : d.InBounds p) (hq : d.InBounds q) :
    d.InBounds (max p q) := by
  change d.InBounds (if p ≤ q then q else p)
  split
  · exact hq
  · exact hp

/-- A stop found in one of several lines is in bounds if each line's stop is. -/
theorem inBounds_findSome? {ls : List Nat} {f : Nat → Option Position} {p : Position}
    (hf : ∀ i ∈ ls, ∀ q, f i = some q → d.InBounds q) (hp : d.InBounds p) :
    d.InBounds ((ls.findSome? f).getD p) := by
  cases h : ls.findSome? f with
  | none => exact hp
  | some q =>
    obtain ⟨i, hi, hq⟩ := List.exists_of_findSome?_eq_some h
    exact hf i hi q hq

theorem inBounds_wordForward (kind : WordKind) (p : Position) :
    d.InBounds (d.wordForward kind p) := by
  simp only [wordForward]
  split
  · exact inBounds_run_start (d.clamp_line_lt p) (List.mem_of_find?_eq_some ‹_›)
  · refine inBounds_findSome? (fun i hi q hq => ?_)
      (inBounds_max d.inBounds_endPosition (d.inBounds_clamp p))
    have hi := (mem_linesAfter.1 hi).2
    split at hq
    · cases hq
      exact inBounds_lineStart hi
    · obtain ⟨r, hr, rfl⟩ := Option.map_eq_some_iff.1 hq
      exact inBounds_run_start hi (List.mem_of_mem_head? hr)

theorem inBounds_wordBackward (kind : WordKind) (p : Position) :
    d.InBounds (d.wordBackward kind p) := by
  simp only [wordBackward]
  split
  · exact inBounds_run_start (d.clamp_line_lt p)
      (List.mem_reverse.1 (List.mem_of_find?_eq_some ‹_›))
  · refine inBounds_findSome? (fun i hi q hq => ?_) d.inBounds_origin
    have hi := Nat.lt_trans (mem_linesBefore.1 hi) (d.clamp_line_lt p)
    split at hq
    · cases hq
      exact inBounds_lineStart hi
    · obtain ⟨r, hr, rfl⟩ := Option.map_eq_some_iff.1 hq
      exact inBounds_run_start hi (List.mem_of_mem_getLast? hr)

theorem inBounds_wordEndForward (kind : WordKind) (p : Position) :
    d.InBounds (d.wordEndForward kind p) := by
  simp only [wordEndForward]
  split
  · exact inBounds_run_last (d.clamp_line_lt p) (List.mem_of_find?_eq_some ‹_›)
  · refine inBounds_findSome? (fun i hi q hq => ?_) (d.inBounds_clamp p)
    obtain ⟨r, hr, rfl⟩ := Option.map_eq_some_iff.1 hq
    exact inBounds_run_last (mem_linesAfter.1 hi).2 (List.mem_of_mem_head? hr)

theorem inBounds_wordEndBackward (kind : WordKind) (p : Position) :
    d.InBounds (d.wordEndBackward kind p) := by
  simp only [wordEndBackward]
  split
  · exact inBounds_run_last (d.clamp_line_lt p)
      (List.mem_reverse.1 (List.mem_of_find?_eq_some ‹_›))
  · refine inBounds_findSome? (fun i hi q hq => ?_) d.inBounds_origin
    have hi := Nat.lt_trans (mem_linesBefore.1 hi) (d.clamp_line_lt p)
    split at hq
    · cases hq
      exact inBounds_lineStart hi
    · obtain ⟨r, hr, rfl⟩ := Option.map_eq_some_iff.1 hq
      exact inBounds_run_last hi (List.mem_of_mem_getLast? hr)

/-! ### Steps by paragraph -/

theorem length_blankLines : d.blankLines.length = d.lineCount := List.length_map _

/-- No more lines are left behind a paragraph and what is blank before it. -/
theorem length_behindParagraph_le (flags : List Bool) :
    ((flags.dropWhile id).dropWhile (!·)).length ≤ flags.length :=
  ((List.dropWhile_sublist _).trans (List.dropWhile_sublist _)).length_le

theorem inBounds_paragraphForward (p : Position) : d.InBounds (d.paragraphForward p) := by
  simp only [paragraphForward]
  split
  · exact d.inBounds_endPosition
  · rename_i h
    have hpos := d.lineCount_pos
    have hrest := List.length_pos_iff.2 (List.isEmpty_eq_false_iff.1 (Bool.eq_false_iff.2 h))
    exact inBounds_lineStart (by omega)

theorem inBounds_paragraphBackward (p : Position) : d.InBounds (d.paragraphBackward p) := by
  have hline := d.clamp_line_lt p
  simp only [paragraphBackward]
  refine inBounds_lineStart (Nat.lt_of_le_of_lt ?_ hline)
  rw [Nat.sub_le_iff_le_add]
  refine Nat.le_trans (length_behindParagraph_le _) ?_
  simp only [List.length_reverse, List.length_take]
  omega

/-! ### Searches -/

/-- A search ends in the cursor's line, on or next to a character found there; short of it only if
there is room. -/
theorem exists_hit_of_find? {f : Find} {again : Bool} {p q : Position}
    (h : d.find? f again p = some q) :
    ∃ i, i < d.lineLen (d.clamp p).line ∧ (f.direction = .after → 0 < i) ∧
      q = ⟨(d.clamp p).line, f.landing i⟩ := by
  simp only [find?] at h
  obtain ⟨i, hi, rfl⟩ := Option.map_eq_some_iff.1 h
  have hmem := List.mem_of_find?_eq_some hi
  have hhit : (d.content (d.clamp p).line)[i]? = some f.target := by
    simpa using List.find?_some hi
  refine ⟨i, ?_, fun hdir => ?_, rfl⟩
  · exact (List.getElem?_eq_some_iff.1 hhit).1
  · -- The columns searched backwards begin behind the cursor's line start.
    rw [hdir] at hmem
    obtain ⟨k, -, rfl⟩ := List.mem_range'.1 hmem
    split <;> omega

theorem inBounds_find? {f : Find} {again : Bool} {p q : Position}
    (h : d.find? f again p = some q) : d.InBounds q := by
  obtain ⟨i, hi, -, rfl⟩ := exists_hit_of_find? h
  refine ⟨d.clamp_line_lt p, ?_⟩
  obtain ⟨c, distance, direction⟩ := f
  cases distance <;> cases direction <;> simp only [Find.landing] <;> omega

theorem inBounds_bracketMatch? {pairs : List BracketPair} {p q : Position}
    (h : d.bracketMatch? pairs p = some q) : d.InBounds q := by
  simp only [bracketMatch?] at h
  split at h <;> split at h
  all_goals
    obtain ⟨m, -, rfl⟩ := Option.map_eq_some_iff.1 h
    exact d.inBounds_positionAt _

end Document

/-- **Where a walk leads.** Walks that keep the column go one line up or down; all others end in
bounds. -/
theorem Walk.target_of_take? {d : Document} {u : Surroundings} {key : Option Key} {p : Position}
    {w : Walk} {a : Arrival} (h : w.take? d u key p = some a) :
    if w.keepsColumn then a.target = p.up ∨ a.target = d.down p else d.InBounds a.target := by
  cases w with
  | left => cases h; exact d.inBounds_left p
  | right => cases h; exact d.inBounds_right p
  | up => cases h; exact .inl rfl
  | down => cases h; exact .inr rfl
  | lineStart => cases h; exact d.inBounds_toLineStart p
  | firstNonBlank => cases h; exact d.inBounds_toFirstNonBlank p
  | lineEnd => cases h; exact d.inBounds_toLineEnd p
  | documentStart => cases h; exact d.inBounds_documentStart
  | documentEnd => cases h; exact d.inBounds_documentEnd
  | wordForward kind => cases h; exact d.inBounds_wordForward kind p
  | wordBackward kind => cases h; exact d.inBounds_wordBackward kind p
  | wordEndForward kind => cases h; exact d.inBounds_wordEndForward kind p
  | wordEndBackward kind => cases h; exact d.inBounds_wordEndBackward kind p
  | paragraphForward => cases h; exact d.inBounds_paragraphForward p
  | paragraphBackward => cases h; exact d.inBounds_paragraphBackward p
  | find direction distance =>
    obtain ⟨c, -, h⟩ := Option.bind_eq_some_iff.1 h
    obtain ⟨q, hq, h⟩ := Option.bind_eq_some_iff.1 h
    cases h
    exact Document.inBounds_find? hq
  | findAgain reverse =>
    obtain ⟨f, -, h⟩ := Option.bind_eq_some_iff.1 h
    obtain ⟨q, hq, h⟩ := Option.bind_eq_some_iff.1 h
    cases h
    exact Document.inBounds_find? hq
  | bracket =>
    obtain ⟨q, hq, h⟩ := Option.bind_eq_some_iff.1 h
    cases h
    exact Document.inBounds_bracketMatch? hq

end ModalEdit
