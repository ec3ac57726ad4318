import ModalEdit.Proofs.Text.Words
import ModalEdit.Proofs.Walk.Bounds
import ModalEdit.Proofs.Walk.Nearest

/-!
# Where walks by word and by paragraph stop

A walk by word stops at the nearest start or end of a word, and all but one of them also at an empty
line; a walk by paragraph stops at the nearest blank line next to one that is not
(`Document.walks_nearest`).
-/

namespace ModalEdit.Document

variable (d : Document)

/-- A word begins at the position. -/
def BeginsWord (kind : WordKind) (p : Position) : Prop :=
  ∃ r : Run, r.IsMaximal kind (d.content p.line) ∧ r.cls ≠ .blank ∧ r.start = p.col

/-- A word ends with the character at the position. -/
def EndsWord (kind : WordKind) (p : Position) : Prop :=
  ∃ r : Run, r.IsMaximal kind (d.content p.line) ∧ r.cls ≠ .blank ∧ r.stop = p.col + 1

/-- The position is all of a line. -/
def IsEmptyLine (p : Position) : Prop :=
  p.line < d.lineCount ∧ d.lineLen p.line = 0 ∧ p.col = 0

/-- The line is blank and the one above it is not. -/
def EndsParagraph (i : Nat) : Prop :=
  i < d.lineCount ∧ d.isBlankLine i = true ∧ ∃ j, j + 1 = i ∧ d.isBlankLine j = false

/-- The line is blank and the one below it is not. -/
def LeadsParagraph (i : Nat) : Prop :=
  i + 1 < d.lineCount ∧ d.isBlankLine i = true ∧ d.isBlankLine (i + 1) = false

/-! ### Stops of a line -/

/-- The columns that words of a line give as stops. The line itself is one if it is empty and empty
lines are stops. -/
def stopColumns (words : Nat → List Run) (column : Run → Nat) (empty : Bool) (i : Nat) : List Nat :=
  if d.lineLen i = 0 ∧ empty = true then [0] else (words i).map column

variable {d} {kind : WordKind} {p q : Position} {i : Nat}

theorem words_of_lineLen (h : d.lineLen i = 0) : d.words kind i = [] := by
  rw [words, List.length_eq_zero_iff.1 h]
  rfl

/-- Words follow each other. -/
theorem pairwise_words (kind : WordKind) (i : Nat) :
    (d.words kind i).Pairwise fun r q => r.start < q.start ∧ r.stop - 1 < q.stop - 1 := by
  refine ((pairwise_runsFrom kind 0 (d.content i)).filter _).imp_of_mem fun hr hq h => ?_
  have := words_bounds hr
  have := words_bounds hq
  omega

/-- Only the lines of the document have words. -/
theorem lt_lineCount_of_isMaximal {r : Run} (h : r.IsMaximal kind (d.content i)) :
    i < d.lineCount := by
  refine Nat.lt_of_not_le fun hle => ?_
  have hnil : d.content i = [] := by
    rw [content, line?, List.getElem?_eq_none hle]
    rfl
  have hstop := h.stop_le_length
  rw [hnil] at hstop
  exact Nat.not_lt_zero _ (Nat.lt_of_lt_of_le h.start_lt hstop)

theorem BeginsWord.lt_lineCount (h : d.BeginsWord kind q) : q.line < d.lineCount := by
  obtain ⟨r, hr, -⟩ := h
  exact lt_lineCount_of_isMaximal hr

theorem EndsWord.lt_lineCount (h : d.EndsWord kind q) : q.line < d.lineCount := by
  obtain ⟨r, hr, -⟩ := h
  exact lt_lineCount_of_isMaximal hr

theorem mem_map_start : q.col ∈ (d.words kind q.line).map Run.start ↔ d.BeginsWord kind q := by
  simp only [List.mem_map, mem_words_iff, BeginsWord, and_assoc]

theorem mem_map_last :
    q.col ∈ (d.words kind q.line).map (fun r => r.stop - 1) ↔ d.EndsWord kind q := by
  simp only [List.mem_map, mem_words_iff, EndsWord, and_assoc]
  refine exists_congr fun r => and_congr_right fun hr => and_congr_right fun _ => ?_
  have := hr.start_lt
  omega

section

variable {column : Run → Nat} (words : Nat → List Run) (empty : Bool)

theorem mem_stopColumns (hwords : ∀ i, d.lineLen i = 0 → words i = [])
    (hq : q.line < d.lineCount) :
    q.col ∈ d.stopColumns words column empty q.line ↔
      q.col ∈ (words q.line).map column ∨ empty = true ∧ d.IsEmptyLine q := by
  rw [IsEmptyLine, and_iff_right hq, stopColumns]
  split
  · rename_i h
    simp [hwords _ h.1, h.1, h.2]
  · rename_i h
    refine (or_iff_left ?_).symm
    rintro ⟨hempty, hlen, -⟩
    exact h ⟨hlen, hempty⟩

/-- **Where a walk by word leads.** The words of each line are given in the direction of the walk,
and so are the lines behind that of `p`. -/
theorem isNearest_walk {r : Nat → Nat → Prop} [DecidableRel r] [Std.Irrefl r] {ls : List Nat}
    {W : Position → Prop} (hp : d.InBounds p) (hls : (p.line :: ls).Pairwise r)
    (hmem : ∀ i, i ∈ ls ↔ r p.line i ∧ i < d.lineCount)
    (hwords : ∀ i, d.lineLen i = 0 → words i = [])
    (hsorted : ∀ i, ((words i).map column).Pairwise r)
    (hW : ∀ q, q.col ∈ (words q.line).map column ↔ W q) (hline : ∀ q, W q → q.line < d.lineCount) :
    IsNearest (Position.Linewise r) (fun q => W q ∨ empty = true ∧ d.IsEmptyLine q) p
      ((((words p.line).find? fun w => decide (r p.col (column w))).map
          fun w => ⟨p.line, column w⟩).or
        (ls.findSome? fun i =>
          if d.lineLen i = 0 ∧ empty = true then some ⟨i, 0⟩
          else (words i).head?.map fun w => ⟨i, column w⟩)) := by
  have hfirst (i : Nat) : (d.stopColumns words column empty i).head?.map (⟨i, ·⟩) =
      if d.lineLen i = 0 ∧ empty = true then some (⟨i, 0⟩ : Position)
      else (words i).head?.map fun w => ⟨i, column w⟩ := by
    unfold stopColumns
    split
    · rfl
    · rw [List.head?_map, Option.map_map]
      rfl
  have hrest : ((d.stopColumns words column empty p.line).find? fun c => decide (r p.col c)) =
      ((words p.line).find? fun w => decide (r p.col (column w))).map column := by
    unfold stopColumns
    split
    · -- In an empty line there is nothing behind the cursor.
      rename_i h
      obtain hcol : p.col = 0 := Nat.le_zero.1 (h.1 ▸ hp.2)
      simp [hwords _ h.1, hcol, Std.Irrefl.irrefl]
    · rw [List.find?_map]
      rfl
  have hsorted' (i : Nat) : (d.stopColumns words column empty i).Pairwise r := by
    unfold stopColumns
    split
    · exact List.pairwise_singleton _ _
    · exact hsorted i
  have hnearest := isNearest_linewise (d.stopColumns words column empty)
    (P := fun q => W q ∨ empty = true ∧ d.IsEmptyLine q) hls (fun i _ => hsorted' i)
    fun q hq => by
      have hlines : q.line ∈ p.line :: ls ↔ q.line < d.lineCount := by
        rw [List.mem_cons, hmem]
        refine ⟨fun h => h.elim (fun h => h ▸ hp.1) And.right, fun h => ?_⟩
        exact hq.elim (fun hlt => .inr ⟨hlt, h⟩) fun hline => .inl hline.1.symm
      rw [hlines, and_congr_right fun h => mem_stopColumns words empty hwords h, hW]
      refine and_iff_right_of_imp fun h => ?_
      exact h.elim (hline q) fun h => h.2.1
  simpa only [hfirst, hrest, Option.map_map, Function.comp_def] using hnearest

end

/-! ### Words ahead and behind -/

theorem pairwise_linesAfter (i : Nat) : (i :: d.linesAfter i).Pairwise (· < ·) :=
  List.pairwise_cons.2 ⟨fun _ hj => (mem_linesAfter.1 hj).1, List.pairwise_lt_range'⟩

theorem pairwise_linesBefore (i : Nat) : (i :: linesBefore i).Pairwise (· > ·) :=
  List.pairwise_cons.2
    ⟨fun _ hj => mem_linesBefore.1 hj, List.pairwise_reverse.2 List.pairwise_lt_range⟩

section

variable {column : Run → Nat} {W : Position → Prop} (empty : Bool)

theorem isNearest_ahead (hp : d.InBounds p)
    (hsorted : ∀ i, ((d.words kind i).map column).Pairwise (· < ·))
    (hW : ∀ q, q.col ∈ (d.words kind q.line).map column ↔ W q)
    (hline : ∀ q, W q → q.line < d.lineCount) :
    IsNearest (· < ·) (fun q => W q ∨ empty = true ∧ d.IsEmptyLine q) p
      ((((d.words kind p.line).find? fun w => p.col < column w).map
          fun w => ⟨p.line, column w⟩).or
        ((d.linesAfter p.line).findSome? fun i =>
          if d.lineLen i = 0 ∧ empty = true then some ⟨i, 0⟩
          else (d.words kind i).head?.map fun w => ⟨i, column w⟩)) :=
  isNearest_walk _ empty hp (pairwise_linesAfter _) (fun _ => mem_linesAfter)
    (fun _ => words_of_lineLen) hsorted hW hline

theorem isNearest_behind (hp : d.InBounds p)
    (hsorted : ∀ i, ((d.words kind i).map column).Pairwise (· < ·))
    (hW : ∀ q, q.col ∈ (d.words kind q.line).map column ↔ W q)
    (hline : ∀ q, W q → q.line < d.lineCount) :
    IsNearest (· > ·) (fun q => W q ∨ empty = true ∧ d.IsEmptyLine q) p
      ((((d.words kind p.line).reverse.find? fun w => column w < p.col).map
          fun w => ⟨p.line, column w⟩).or
        ((linesBefore p.line).findSome? fun i =>
          if d.lineLen i = 0 ∧ empty = true then some ⟨i, 0⟩
          else (d.words kind i).getLast?.map fun w => ⟨i, column w⟩)) := by
  have : Std.Irrefl ((· > ·) : Nat → Nat → Prop) := ⟨Nat.lt_irrefl⟩
  have hmem (i : Nat) : i ∈ linesBefore p.line ↔ p.line > i ∧ i < d.lineCount :=
    mem_linesBefore.trans (and_iff_left_of_imp fun h => Nat.lt_trans h hp.1).symm
  have h := isNearest_walk (fun i => (d.words kind i).reverse) empty hp (pairwise_linesBefore _)
    hmem
    (fun i hi => by rw [words_of_lineLen hi, List.reverse_nil])
    (fun i => by rw [List.map_reverse, List.pairwise_reverse]; exact hsorted i)
    (fun q => by rw [List.map_reverse, List.mem_reverse]; exact hW q) hline
  simp only [List.head?_reverse, Position.linewise_gt] at h
  exact h

end

theorem pairwise_map_start (kind : WordKind) (i : Nat) :
    ((d.words kind i).map Run.start).Pairwise (· < ·) :=
  List.pairwise_map.2 ((pairwise_words kind i).imp And.left)

theorem pairwise_map_last (kind : WordKind) (i : Nat) :
    ((d.words kind i).map fun r => r.stop - 1).Pairwise (· < ·) :=
  List.pairwise_map.2 ((pairwise_words kind i).imp And.right)

/-! ### Blank lines next to a paragraph -/

/-- The flag is set and the one in front of it is not. -/
def EndsGap (flags : List Bool) (k : Nat) : Prop :=
  flags[k]? = some true ∧ ∃ j, j + 1 = k ∧ flags[j]? = some false

section

variable {front gap rest : List Bool}

/-- Behind set flags no gap ends before those of the first one do. -/
theorem EndsGap.le {k : Nat} (hfront : ∀ b ∈ front, b = true) (hgap : ∀ b ∈ gap, b = false)
    (h : EndsGap (front ++ (gap ++ rest)) k) : front.length + gap.length ≤ k := by
  obtain ⟨hk, j, rfl, hj⟩ := h
  have hle : front.length ≤ j := by
    refine Nat.le_of_not_lt fun hlt => ?_
    rw [List.getElem?_append_left hlt] at hj
    exact Bool.false_ne_true (hfront _ (List.mem_of_getElem? hj))
  refine Nat.le_of_not_lt fun hlt => ?_
  rw [List.getElem?_append_right (by omega), List.getElem?_append_left (by omega)] at hk
  exact Bool.false_ne_true (hgap _ (List.mem_of_getElem? hk)).symm

/-- A gap ends with the first set flag behind it. -/
theorem endsGap_append (hgap : ∀ b ∈ gap, b = false) (hne : gap ≠ []) :
    EndsGap (front ++ (gap ++ true :: rest)) (front.length + gap.length) := by
  have hpos := List.length_pos_iff.2 hne
  refine ⟨?_, front.length + (gap.length - 1), by omega, ?_⟩
  · rw [List.getElem?_append_right (Nat.le_add_right _ _), Nat.add_sub_cancel_left,
      List.getElem?_append_right (Nat.le_refl _), Nat.sub_self, List.getElem?_cons_zero]
  · rw [List.getElem?_append_right (Nat.le_add_right _ _), Nat.add_sub_cancel_left,
      List.getElem?_append_left (by omega), List.getElem?_eq_getElem (by omega),
      hgap _ (List.getElem_mem _)]

end

/-- **Behind the first gap.** The nearest flag that ends a gap is the first one left when the set
flags in front and then those of the gap are dropped. -/
theorem isNearest_endsGap (flags : List Bool) :
    let rest := (flags.dropWhile id).dropWhile (!·)
    IsNearest (· < ·) (EndsGap flags) 0
      (if rest.isEmpty then none else some (flags.length - rest.length)) := by
  intro rest
  generalize hfronts : flags.takeWhile id = front
  generalize hgaps : (flags.dropWhile id).takeWhile (!·) = gap
  have hflags : flags = front ++ (gap ++ rest) := by
    rw [← hfronts, ← hgaps, List.takeWhile_append_dropWhile, List.takeWhile_append_dropWhile]
  have hfront : ∀ b ∈ front, b = true := hfronts ▸ List.all_eq_true.1 List.all_takeWhile
  have hgap : ∀ b ∈ gap, b = false := by
    simpa only [hgaps, Bool.not_eq_true'] using
      List.all_eq_true.1 (List.all_takeWhile (p := (!·)) (l := flags.dropWhile id))
  have hlen : flags.length = front.length + gap.length + rest.length := by
    rw [hflags, List.length_append, List.length_append, Nat.add_assoc]
  have hle {k : Nat} (hk : EndsGap flags k) : front.length + gap.length ≤ k :=
    (hflags ▸ hk : EndsGap (front ++ (gap ++ rest)) k).le hfront hgap
  cases hrest : rest with
  | nil =>
    intro k hk _
    have := hle hk
    have := (List.getElem?_eq_some_iff.1 hk.1).1
    rw [hrest, List.length_nil] at hlen
    omega
  | cons b bs =>
    have hdrop : (flags.dropWhile id).dropWhile (!·) = b :: bs := hrest
    obtain rfl : b = true := by
      simpa [hdrop] using List.head?_dropWhile_not (!·) (flags.dropWhile id)
    have hne : gap ≠ [] := fun hnil => by
      -- The first flag behind those in front is not set.
      have h := List.head?_dropWhile_not id flags
      rw [← List.takeWhile_append_dropWhile (p := (!·)) (l := flags.dropWhile id), hgaps, hnil,
        hdrop] at h
      cases h
    have hends : EndsGap flags (front.length + gap.length) := by
      rw [hflags, hrest]
      exact endsGap_append hgap hne
    have hpos := List.length_pos_iff.2 hne
    rw [← hrest, show flags.length - rest.length = front.length + gap.length by omega, hrest]
    exact ⟨hends, by omega, fun k hk _ => (Nat.eq_or_lt_of_le (hle hk)).imp_left Eq.symm⟩

theorem getElem?_blankLines (i : Nat) (b : Bool) :
    d.blankLines[i]? = some b ↔ i < d.lineCount ∧ d.isBlankLine i = b := by
  rw [blankLines, List.getElem?_map, isBlankLine, content, line?, lineCount]
  rw [Option.map_eq_some_iff]
  constructor
  · rintro ⟨l, hl, rfl⟩
    exact ⟨(List.getElem?_eq_some_iff.1 hl).1, by rw [hl, Option.getD_some]⟩
  · rintro ⟨hi, rfl⟩
    exact ⟨d.lines[i], List.getElem?_eq_getElem hi, by
      rw [List.getElem?_eq_getElem hi, Option.getD_some]⟩

/-- Down from a line a gap ends where a paragraph does. -/
theorem endsGap_below {k : Nat} (hk : 0 < k) :
    EndsGap (d.blankLines.drop i) k ↔ d.EndsParagraph (i + k) := by
  simp only [EndsGap, List.getElem?_drop, getElem?_blankLines, EndsParagraph, and_assoc]
  refine and_congr_right fun hlt => and_congr_right fun _ => ⟨?_, ?_⟩
  · rintro ⟨j, rfl, -, hj⟩
    exact ⟨i + j, rfl, hj⟩
  · rintro ⟨j, hjk, hj⟩
    obtain ⟨m, rfl⟩ : ∃ m, j = i + m := ⟨j - i, by omega⟩
    exact ⟨m, by omega, by omega, hj⟩

theorem length_blankLines_above (hi : i < d.lineCount) :
    (d.blankLines.take (i + 1)).length = i + 1 := by
  rw [List.length_take, length_blankLines]
  exact Nat.min_eq_left hi

/-- The flags of a line and of those above it, from the line up. -/
theorem getElem?_blankLines_above (hi : i < d.lineCount) (k : Nat) (b : Bool) :
    (d.blankLines.take (i + 1)).reverse[k]? = some b ↔ k ≤ i ∧ d.isBlankLine (i - k) = b := by
  have hlen := length_blankLines_above hi
  rcases Nat.lt_or_ge i k with h | h
  · rw [List.getElem?_eq_none (by rw [List.length_reverse]; omega)]
    exact iff_of_false (Option.some_ne_none b).symm fun hk => by omega
  · rw [List.getElem?_reverse (by omega), hlen, List.getElem?_take_of_lt (by omega),
      getElem?_blankLines, Nat.add_sub_cancel, and_iff_right h, and_iff_right (by omega)]

/-- Up from a line a gap ends where one leads to a paragraph. -/
theorem endsGap_above (hi : i < d.lineCount) {k : Nat} :
    EndsGap (d.blankLines.take (i + 1)).reverse k ↔
      0 < k ∧ k ≤ i ∧ d.LeadsParagraph (i - k) := by
  simp only [EndsGap, getElem?_blankLines_above hi, LeadsParagraph]
  constructor
  · rintro ⟨⟨hk, hblank⟩, j, rfl, -, hj⟩
    rw [show i - (j + 1) + 1 = i - j by omega]
    exact ⟨by omega, hk, by omega, hblank, hj⟩
  · rintro ⟨hpos, hk, -, hblank, hj⟩
    refine ⟨⟨hk, hblank⟩, k - 1, by omega, by omega, ?_⟩
    rwa [show i - (k - 1) = i - k + 1 by omega]

/-! ### The six walks -/

theorem isNearest_paragraphForward (p : Position) : ∃ o,
    IsNearest (· < ·) d.EndsParagraph (d.clamp p).line o ∧
      d.paragraphForward p = (o.map (⟨·, 0⟩)).getD d.endPosition := by
  generalize hi : (d.clamp p).line = i
  refine ⟨_, (isNearest_endsGap (d.blankLines.drop i)).map (f := (i + ·)) ?_ ?_ ?_, ?_⟩
  · exact fun k hk hpos => ⟨Nat.lt_add_of_pos_right hpos, (endsGap_below hpos).1 hk⟩
  · exact fun _ _ _ _ h => Nat.add_lt_add_left h i
  · intro j hj hlt
    obtain ⟨k, rfl⟩ := Nat.exists_eq_add_of_lt hlt
    exact ⟨k + 1, (endsGap_below (Nat.succ_pos k)).2 hj, Nat.succ_pos k, rfl⟩
  · have hrest := length_behindParagraph_le (d.blankLines.drop i)
    have hlen : (d.blankLines.drop i).length = d.lineCount - i := by
      rw [List.length_drop, length_blankLines]
    have hlt : i < d.lineCount := hi ▸ d.clamp_line_lt p
    simp only [paragraphForward, hi]
    split
    · rfl
    · simp only [Option.map_some, Option.getD_some, Position.mk.injEq, and_true]
      omega

theorem isNearest_paragraphBackward (p : Position) : ∃ o,
    IsNearest (· > ·) d.LeadsParagraph (d.clamp p).line o ∧
      d.paragraphBackward p = (o.map (⟨·, 0⟩)).getD .origin := by
  generalize hi : (d.clamp p).line = i
  have hlt : i < d.lineCount := hi ▸ d.clamp_line_lt p
  have habove {k : Nat} := endsGap_above (k := k) hlt
  refine ⟨_, (isNearest_endsGap (d.blankLines.take (i + 1)).reverse).map (f := (i - ·)) ?_ ?_ ?_,
    ?_⟩
  · intro k hk hpos
    obtain ⟨-, hle, hleads⟩ := habove.1 hk
    exact ⟨Nat.sub_lt_self hpos hle, hleads⟩
  · intro k m _ hm h
    have hle := (habove.1 hm).2.1
    omega
  · intro j hj hlt
    have hsub : i - (i - j) = j := Nat.sub_sub_self (Nat.le_of_lt hlt)
    have hpos : 0 < i - j := Nat.sub_pos_of_lt hlt
    exact ⟨i - j, habove.2 ⟨hpos, Nat.sub_le i j, hsub.symm ▸ hj⟩, hpos, hsub⟩
  · have hrest := length_behindParagraph_le (d.blankLines.take (i + 1)).reverse
    have hlen := length_blankLines_above hlt
    rw [List.length_reverse] at hrest
    simp only [paragraphBackward, hi, List.length_reverse]
    split
    · rename_i hnil
      rw [List.isEmpty_iff.1 hnil]
      rfl
    · simp only [Option.map_some, Option.getD_some, Position.mk.injEq, and_true]
      omega

variable (kind p)

theorem isNearest_wordForward : ∃ o,
    IsNearest (· < ·) (fun q => d.BeginsWord kind q ∨ d.IsEmptyLine q) (d.clamp p) o ∧
      d.wordForward kind p = o.getD d.endPosition := by
  have h := isNearest_ahead true (d.inBounds_clamp p) (pairwise_map_start kind)
    (fun _ => mem_map_start) fun _ => BeginsWord.lt_lineCount
  simp only [true_and, and_true] at h
  refine ⟨_, h, ?_⟩
  have hmax : max d.endPosition (d.clamp p) = d.endPosition := by
    change (if d.endPosition ≤ d.clamp p then d.clamp p else d.endPosition) = d.endPosition
    split
    · exact Position.le_antisymm (le_endPosition (d.inBounds_clamp p)) ‹_›
    · rfl
  simp only [wordForward, hmax]
  cases (d.words kind (d.clamp p).line).find? fun r => (d.clamp p).col < r.start <;> rfl

theorem isNearest_wordBackward : ∃ o,
    IsNearest (· > ·) (fun q => d.BeginsWord kind q ∨ d.IsEmptyLine q) (d.clamp p) o ∧
      d.wordBackward kind p = o.getD .origin := by
  have h := isNearest_behind true (d.inBounds_clamp p) (pairwise_map_start kind)
    (fun _ => mem_map_start) fun _ => BeginsWord.lt_lineCount
  simp only [true_and, and_true] at h
  refine ⟨_, h, ?_⟩
  simp only [wordBackward]
  cases (d.words kind (d.clamp p).line).reverse.find? fun r => r.start < (d.clamp p).col <;> rfl

theorem isNearest_wordEndForward : ∃ o,
    IsNearest (· < ·) (d.EndsWord kind) (d.clamp p) o ∧
      d.wordEndForward kind p = o.getD (d.clamp p) := by
  have h := isNearest_ahead false (d.inBounds_clamp p) (pairwise_map_last kind)
    (fun _ => mem_map_last) fun _ => EndsWord.lt_lineCount
  simp only [Bool.false_eq_true, false_and, and_false, or_false, if_false] at h
  refine ⟨_, h, ?_⟩
  simp only [wordEndForward]
  cases (d.words kind (d.clamp p).line).find? fun r => (d.clamp p).col < r.stop - 1 <;> rfl

theorem isNearest_wordEndBackward : ∃ o,
    IsNearest (· > ·) (fun q => d.EndsWord kind q ∨ d.IsEmptyLine q) (d.clamp p) o ∧
      d.wordEndBackward kind p = o.getD .origin := by
  have h := isNearest_behind true (d.inBounds_clamp p) (pairwise_map_last kind)
    (fun _ => mem_map_last) fun _ => EndsWord.lt_lineCount
  simp only [true_and, and_true] at h
  refine ⟨_, h, ?_⟩
  simp only [wordEndBackward]
  cases (d.words kind (d.clamp p).line).reverse.find? fun r => r.stop - 1 < (d.clamp p).col <;> rfl

variable (d)

/-- **Walks by word and by paragraph lead to the nearest stop.** From the place where the cursor
stands, moved into the document, a walk forwards leads to the least stop behind it and a walk
backwards to the greatest one before it. Without such a stop it leads to the end or to the start of
the document; only the walk to the end of a word stays where it is. -/
theorem walks_nearest :
    (∃ o, IsNearest (· < ·) (fun q => d.BeginsWord kind q ∨ d.IsEmptyLine q) (d.clamp p) o ∧
      d.wordForward kind p = o.getD d.endPosition) ∧
    (∃ o, IsNearest (· > ·) (fun q => d.BeginsWord kind q ∨ d.IsEmptyLine q) (d.clamp p) o ∧
      d.wordBackward kind p = o.getD .origin) ∧
    (∃ o, IsNearest (· < ·) (d.EndsWord kind) (d.clamp p) o ∧
      d.wordEndForward kind p = o.getD (d.clamp p)) ∧
    (∃ o, IsNearest (· > ·) (fun q => d.EndsWord kind q ∨ d.IsEmptyLine q) (d.clamp p) o ∧
      d.wordEndBackward kind p = o.getD .origin) ∧
    (∃ o, IsNearest (· < ·) d.EndsParagraph (d.clamp p).line o ∧
      d.paragraphForward p = (o.map (⟨·, 0⟩)).getD d.endPosition) ∧
    ∃ o, IsNearest (· > ·) d.LeadsParagraph (d.clamp p).line o ∧
      d.paragraphBackward p = (o.map (⟨·, 0⟩)).getD .origin :=
  ⟨isNearest_wordForward kind p, isNearest_wordBackward kind p, isNearest_wordEndForward kind p,
    isNearest_wordEndBackward kind p, isNearest_paragraphForward p, isNearest_paragraphBackward p⟩

end ModalEdit.Document
