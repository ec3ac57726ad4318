import ModalEdit.Proofs.Register
import ModalEdit.Proofs.Text.Rebuild

/-!
# A text as the contents of its lines

In a text whose only breaks are line feeds the lines are what stands between the line feeds
(`Document.contents_eq_splitOn`). With a line feed behind the last line as well, the text is all its
lines with a line feed behind each (`Document.text_append_newline`), and in this form it tells what
its lines are (`Document.contents_of_ended`).
-/

namespace ModalEdit

/-- Lines with a line feed behind each. -/
def ended (ls : List Text) : Text := (ls.map (· ++ ['\n'])).flatten

/-- No character of the text ends a line. -/
def IsLine (l : Text) : Prop := ∀ c ∈ l, ¬ isLineBreak c

theorem isLine_nil : IsLine [] := fun _ hc => absurd hc List.not_mem_nil

@[simp] theorem ended_nil : ended [] = [] := rfl

@[simp] theorem ended_cons (l : Text) (ls : List Text) :
    ended (l :: ls) = l ++ '\n' :: ended ls := by
  simp [ended]

@[simp] theorem ended_append (ls ls' : List Text) : ended (ls ++ ls') = ended ls ++ ended ls' := by
  simp [ended]

theorem map_dropBreak_consFirst {c : Char} (hc : c ≠ '\n') {ls : List Text} (hne : ls ≠ []) :
    (consFirst c ls).map dropBreak = (ls.map dropBreak).modifyHead (c :: ·) := by
  obtain ⟨l, ls, rfl⟩ := List.exists_cons_of_ne_nil hne
  have hfirst : dropBreak (c :: l) = c :: dropBreak l := by
    cases l with
    | nil => simp [dropBreak, hc]
    | cons b l =>
      simp only [dropBreak, List.getLast?_cons_cons]
      split <;> rfl
  rw [consFirst, List.map_cons, List.map_cons, hfirst, List.modifyHead_cons]

theorem not_mem_of_mem_splitOn {t l : Text} (h : l ∈ t.splitOn '\n') : '\n' ∉ l := by
  induction t generalizing l with
  | nil =>
    rw [List.splitOn_nil, List.mem_singleton] at h
    simp [h]
  | cons c t ih =>
    obtain ⟨k, ks, hk⟩ := List.exists_cons_of_ne_nil (List.splitOn_ne_nil '\n' t)
    rw [List.splitOn_cons_eq_if_modifyHead, hk] at h
    rw [hk] at ih
    split at h
    · rcases List.mem_cons.1 h with rfl | h
      · exact List.not_mem_nil
      · exact ih h
    · rename_i hc
      rcases List.mem_cons.1 h with rfl | h
      · have hk := ih List.mem_cons_self
        simp only [List.mem_cons, not_or]
        exact ⟨fun h => hc (beq_iff_eq.2 h.symm), hk⟩
      · exact ih (List.mem_cons_of_mem _ h)

/-- There are as many line feeds as lines. -/
theorem count_ended {ls : List Text} (h : ∀ l ∈ ls, IsLine l) :
    (ended ls).count '\n' = ls.length := by
  induction ls with
  | nil => rfl
  | cons l ls ih =>
    obtain ⟨hl, h⟩ := List.forall_mem_cons.1 h
    have hnone : l.count '\n' = 0 :=
      List.count_eq_zero.2 fun hmem => hl _ hmem (by decide)
    rw [ended_cons, List.count_append, List.count_cons_self, hnone, ih h, List.length_cons]
    omega

namespace Document

variable {d : Document}

/-- The lines without their line feeds. -/
def contents (d : Document) : List Text := d.lines.map dropBreak

theorem length_contents : d.contents.length = d.lineCount := List.length_map _

theorem length_take_contents {n : Nat} (h : n ≤ d.lastLine) : (d.contents.take n).length = n := by
  have := d.lastLine_add_one
  exact List.length_take_of_le (by rw [length_contents]; omega)

theorem drop_contents_of_lt {n : Nat} (h : d.lastLine < n) : d.contents.drop n = [] := by
  have := d.lastLine_add_one
  exact List.drop_of_length_le (by rw [length_contents]; omega)

theorem getElem?_contents {i : Nat} (hi : i < d.lineCount) :
    d.contents[i]? = some (d.content i) := by
  have hline : d.lines[i]? = some d.lines[i] := List.getElem?_eq_getElem hi
  rw [contents, List.getElem?_map, content, line?, hline]
  rfl

theorem content_eq_getD (d : Document) (i : Nat) : d.content i = (d.contents[i]?).getD [] := by
  rw [contents, List.getElem?_map, content, line?]
  cases d.lines[i]? <;> rfl

/-- **The lines are what stands between the line feeds.** -/
theorem contents_eq_splitOn (hd : d.LineFeedsOnly) : d.contents = d.text.splitOn '\n' := by
  obtain ⟨t, ls, rfl⟩ := d
  have ht : ∀ c ∈ t, isLineBreak c → c = '\n' := hd
  change (splitLines t).map dropBreak = t.splitOn '\n'
  induction t with
  | nil => rfl
  | cons c t ih =>
    obtain ⟨hc, ht⟩ := List.forall_mem_cons.1 ht
    have hcr : ¬ (c = '\r' ∧ t.head? = some '\n') := by
      rintro ⟨rfl, -⟩
      exact absurd (hc (by decide)) (by decide)
    rw [List.splitOn_cons_eq_if_modifyHead, ← ih ht ht, splitLines,
      if_neg hcr]
    by_cases hbreak : isLineBreak c
    · obtain rfl := hc hbreak
      rfl
    · have hne : c ≠ '\n' := fun h => hbreak (h ▸ by decide)
      rw [if_neg hbreak, if_neg (by simpa using hne),
        map_dropBreak_consFirst hne (splitLines_ne_nil t)]

/-- **With a final line feed a text is its lines with a line feed behind each.** -/
theorem text_append_newline (hd : d.LineFeedsOnly) : d.text ++ ['\n'] = ended d.contents := by
  rw [contents_eq_splitOn hd, ended, ← intercalate_append_newline (List.splitOn_ne_nil _ _),
    List.intercalate_splitOn]

theorem isLine_of_mem_contents (hd : d.LineFeedsOnly) {l : Text} (hl : l ∈ d.contents) :
    IsLine l := by
  intro c hc hbreak
  have hmem : c ∈ d.text ++ ['\n'] := by
    rw [text_append_newline hd]
    exact List.mem_flatten.2 ⟨_, List.mem_map_of_mem hl, List.mem_append_left _ hc⟩
  obtain rfl : c = '\n' := by
    rcases List.mem_append.1 hmem with hmem | hmem
    · exact hd c hmem hbreak
    · simpa using hmem
  rw [contents_eq_splitOn hd] at hl
  exact not_mem_of_mem_splitOn hl hc

theorem isLine_content (hd : d.LineFeedsOnly) {i : Nat} (hi : i < d.lineCount) :
    IsLine (d.content i) :=
  isLine_of_mem_contents hd (List.mem_of_getElem? (getElem?_contents hi))

/-- There is one line more than line feeds. -/
theorem lineCount_eq_count (hd : d.LineFeedsOnly) : d.lineCount = d.text.count '\n' + 1 := by
  have hcount := count_ended fun l => isLine_of_mem_contents (l := l) hd
  rw [← text_append_newline hd, List.count_append, length_contents] at hcount
  exact hcount.symm

/-- A text that is lines with a line feed behind each has no other breaks. -/
theorem lineFeedsOnly_of_ended {ls : List Text} (h : d.text ++ ['\n'] = ended ls)
    (hls : ∀ l ∈ ls, IsLine l) : d.LineFeedsOnly := by
  intro c hc hbreak
  have hmem : c ∈ ended ls := h ▸ List.mem_append_left _ hc
  obtain ⟨_, hline, hmem⟩ := List.mem_flatten.1 hmem
  obtain ⟨l, hl, rfl⟩ := List.mem_map.1 hline
  rcases List.mem_append.1 hmem with hmem | hmem
  · exact absurd hbreak (hls l hl c hmem)
  · simpa using hmem

/-- **The lines of a text can be read off it with a final line feed.** -/
theorem contents_of_ended {ls : List Text} (h : d.text ++ ['\n'] = ended ls)
    (hls : ∀ l ∈ ls, IsLine l) : d.contents = ls := by
  have hne : ls ≠ [] := by
    rintro rfl
    simp at h
  have htext : d.text = ['\n'].intercalate ls := by
    rw [ended, ← intercalate_append_newline hne] at h
    exact List.append_cancel_right h
  rw [contents_eq_splitOn (lineFeedsOnly_of_ended h hls), htext]
  exact List.splitOn_intercalate '\n' (fun l hl hmem => hls l hl _ hmem (by decide)) hne

/-! ### Offsets of lines -/

theorem lineStart_eq_length_ended (hd : d.LineFeedsOnly) {i : Nat} (hi : i ≤ d.lastLine) :
    d.lineStart i = (ended (d.contents.take i)).length := by
  induction i with
  | zero => simp
  | succ i ih =>
    have hlt : i < d.lineCount := lt_lineCount (by omega)
    rw [lineStart_succ, ih (by omega), hd.width_eq hi, List.take_add_one, getElem?_contents hlt]
    simp [lineLen]

/-- A line begins behind the lines before it. -/
theorem positionAt_length_ended (hd : d.LineFeedsOnly) {i : Nat} (hi : i ≤ d.lastLine) :
    d.positionAt (ended (d.contents.take i)).length = ⟨i, 0⟩ := by
  rw [← lineStart_eq_length_ended hd hi, ← offsetOf_lineStart hi]
  exact hd.positionAt_offsetOf (inBounds_lineStart (lt_lineCount hi))

theorem text_append_newline_eq (hd : d.LineFeedsOnly) (i : Nat) :
    d.text ++ ['\n'] = ended (d.contents.take i) ++ ended (d.contents.drop i) := by
  rw [← ended_append, List.take_append_drop, text_append_newline hd]

variable {i j : Nat}

theorem lineStart_le_size (hi : i ≤ d.lastLine) : d.lineStart i ≤ d.text.length := by
  have hsize : d.lineStart d.lastLine + _ = d.text.length := lineStart_lastLine
  have := lineStart_mono (d := d) hi
  omega

/-- Up to the start of a line the text is the lines before. -/
theorem take_lineStart (hd : d.LineFeedsOnly) (hi : i ≤ d.lastLine) :
    d.text.take (d.lineStart i) = ended (d.contents.take i) := by
  have htake : (d.text ++ ['\n']).take (d.lineStart i) = d.text.take (d.lineStart i) :=
    List.take_append_of_le_length (lineStart_le_size hi)
  rw [← htake, text_append_newline_eq hd i, lineStart_eq_length_ended hd hi, List.take_left]

/-- From the start of a line on the text is that line and those behind it. -/
theorem drop_lineStart (hd : d.LineFeedsOnly) (hi : i ≤ d.lastLine) :
    d.text.drop (d.lineStart i) ++ ['\n'] = ended (d.contents.drop i) := by
  rw [← List.drop_append_of_le_length (lineStart_le_size hi), text_append_newline_eq hd i,
    lineStart_eq_length_ended hd hi, List.drop_left]

/-- The lines before a line, cut into two. -/
theorem ended_take (hij : i ≤ j) :
    ended (d.contents.take j) =
      ended (d.contents.take i) ++ ended ((d.contents.take j).drop i) := by
  have hfirst : d.contents.take i = (d.contents.take j).take i := by
    rw [List.take_take, Nat.min_eq_left hij]
  rw [hfirst, ← ended_append, List.take_append_drop]

/-- Between the starts of two lines there are the lines from the first to the second. -/
theorem cut_lineStart (hd : d.LineFeedsOnly) (hij : i ≤ j) (hj : j ≤ d.lastLine) :
    cut d.text (d.lineStart i) (d.lineStart j) = ended ((d.contents.take j).drop i) := by
  have hcut := take_append_cut (t := d.text) (lineStart_mono (d := d) hij)
  rw [take_lineStart hd (by omega), take_lineStart hd hj, ended_take hij] at hcut
  exact List.append_cancel_left hcut

theorem ended_take_succ (hi : i ≤ d.lastLine) :
    ended (d.contents.take (i + 1)) = ended (d.contents.take i) ++ d.content i ++ ['\n'] := by
  rw [List.take_add_one, getElem?_contents (lt_lineCount hi)]
  simp

theorem offsetOf_lineEnd (hd : d.LineFeedsOnly) (hi : i ≤ d.lastLine) :
    d.offsetOf (d.lineEnd i) = (ended (d.contents.take i) ++ d.content i).length := by
  rw [List.length_append, ← lineStart_eq_length_ended hd hi,
    offsetOf_of_inBounds (inBounds_lineEnd (lt_lineCount hi))]
  rfl

/-- Up to the end of a line the text is that line and those before, less a line feed. -/
theorem take_lineEnd (hd : d.LineFeedsOnly) (hi : i ≤ d.lastLine) :
    d.text.take (d.offsetOf (d.lineEnd i)) ++ ['\n'] = ended (d.contents.take (i + 1)) := by
  have htake : (d.text ++ ['\n']).take (d.offsetOf (d.lineEnd i)) =
      d.text.take (d.offsetOf (d.lineEnd i)) :=
    List.take_append_of_le_length (d.offsetOf_le_size _)
  rw [← htake, text_append_newline_eq hd (i + 1), ended_take_succ hi, List.append_assoc,
    offsetOf_lineEnd hd hi, List.take_left]

/-- From the end of a line on the text is a line feed and the lines behind, unless the text ends
there. -/
theorem drop_lineEnd (hd : d.LineFeedsOnly) (hi : i ≤ d.lastLine) :
    d.text.drop (d.offsetOf (d.lineEnd i)) ++ ['\n'] =
      '\n' :: ended (d.contents.drop (i + 1)) := by
  rw [← List.drop_append_of_le_length (d.offsetOf_le_size _), text_append_newline_eq hd (i + 1),
    ended_take_succ hi, List.append_assoc, offsetOf_lineEnd hd hi, List.drop_left]
  rfl

/-- Between the end of a line and a column of the next one there are the line feed and the front of
the next line. -/
theorem cut_lineEnd (hd : d.LineFeedsOnly) (hi : i < d.lastLine) {c : Nat}
    (hc : c ≤ d.lineLen (i + 1)) :
    cut d.text (d.offsetOf (d.lineEnd i)) (d.offsetOf ⟨i + 1, c⟩) =
      '\n' :: (d.content (i + 1)).take c := by
  have hin : d.InBounds ⟨i + 1, c⟩ := ⟨lt_lineCount hi, hc⟩
  have hstart : d.lineStart (i + 1) = d.offsetOf (d.lineEnd i) + 1 :=
    hd.lineStart_eq_add_one (Nat.succ_pos i) hi
  have hstop : d.offsetOf ⟨i + 1, c⟩ = d.offsetOf (d.lineEnd i) + (c + 1) := by
    rw [offsetOf_of_inBounds hin]
    dsimp only
    omega
  have hle : c + 1 ≤ (d.text.drop (d.offsetOf (d.lineEnd i))).length := by
    have hsize : d.offsetOf ⟨i + 1, c⟩ ≤ d.text.length := d.offsetOf_le_size _
    rw [List.length_drop]
    omega
  have hnext : d.contents.drop (i + 1) = d.content (i + 1) :: d.contents.drop (i + 2) := by
    obtain ⟨hlt, hget⟩ := List.getElem?_eq_some_iff.1 (getElem?_contents hin.1)
    rw [List.drop_eq_getElem_cons hlt, hget]
  have htake := congrArg (List.take (c + 1)) (drop_lineEnd hd (Nat.le_of_lt hi))
  rw [List.take_append_of_le_length hle, hnext, ended_cons, List.take_succ_cons,
    List.take_append_of_le_length hc] at htake
  rw [cut, hstop, Nat.add_sub_cancel_left, htake]

/-- Up to the end of the line before, the last of these lines lacks its line feed. -/
theorem cut_lineStart_sub_one (hd : d.LineFeedsOnly) (hij : i < j) (hj : j ≤ d.lastLine) :
    cut d.text (d.lineStart i) (d.lineStart j - 1) ++ ['\n'] =
      ended ((d.contents.take j).drop i) := by
  obtain ⟨j, rfl⟩ := Nat.exists_eq_add_one.2 (Nat.zero_lt_of_lt hij)
  have hstart : d.lineStart (j + 1) = d.offsetOf (d.lineEnd j) + 1 :=
    hd.lineStart_eq_add_one (Nat.succ_pos j) hj
  have hmono := hd.lineStart_lt hij hj
  rw [hstart, Nat.add_sub_cancel]
  have hcut := take_append_cut (t := d.text)
    (show d.lineStart i ≤ d.offsetOf (d.lineEnd j) by omega)
  have hlines := take_lineEnd (d := d) hd (i := j) (by omega)
  rw [← hcut, take_lineStart hd (by omega), ended_take (Nat.le_of_lt hij),
    List.append_assoc] at hlines
  exact List.append_cancel_left hlines

end Document

end ModalEdit
