import ModalEdit.CommandLine.Replay
import ModalEdit.Proofs.Text.Contents

/-!
# The breaks of a file that is opened

A document is handled as lines that end in line feeds. `Document.EndsInLineFeeds` says of every line
what is relied on there, and it holds of a document if and only if line feeds are its only breaks
(`Document.lineFeedsOnly_iff_endsInLineFeeds`).

When a file is opened, the carriage return in front of a line feed is dropped and nothing else. So
all breaks of the document are line feeds exactly for those files that have no other breaks than
line feeds and pairs of both (`CommandLine.openEditor_endsInLineFeeds_iff`).
-/

namespace ModalEdit

namespace Document

variable {d : Document}

/-- Every line but the last is its content and a line feed, its content holds no break, and its end
is not where the next line starts. -/
def EndsInLineFeeds (d : Document) : Prop :=
  ∀ i < d.lastLine, d.line? i = some (d.content i ++ ['\n']) ∧ IsLine (d.content i) ∧
    d.offsetOf (d.lineEnd i) ≠ d.offsetOf ⟨i + 1, 0⟩

theorem LineFeedsOnly.line?_eq (hd : d.LineFeedsOnly) {i : Nat} (hi : i < d.lastLine) :
    d.line? i = some (d.content i ++ ['\n']) := by
  obtain ⟨l, hl, hline⟩ := exists_line?_of_lt hi
  obtain ⟨c, hc, hbreak⟩ := getLast?_of_mem_dropLast_splitLines hl
  have hmem : c ∈ d.text := by
    rw [← flatten_splitLines d.text]
    exact List.mem_flatten.2 ⟨l, List.dropLast_subset _ hl, List.mem_of_getLast? hc⟩
  obtain rfl := hd c hmem hbreak
  obtain ⟨front, rfl⟩ := List.getLast?_eq_some_iff.1 hc
  simp [content, hline, dropBreak]

/-- **The two ways to say that line feeds are the only breaks.** -/
theorem lineFeedsOnly_iff_endsInLineFeeds : d.LineFeedsOnly ↔ d.EndsInLineFeeds := by
  constructor
  · intro hd i hi
    have hlt : i < d.lineCount := lt_lineCount (Nat.le_of_lt hi)
    refine ⟨hd.line?_eq hi, isLine_content hd hlt, Nat.ne_of_lt ?_⟩
    exact hd.offsetOf_lt (inBounds_lineEnd hlt) (inBounds_lineStart (lt_lineCount hi))
      (.inl (Nat.lt_succ_self i))
  · intro h c hc hbreak
    rw [← d.flatten_lines] at hc
    obtain ⟨l, hl, hc⟩ := List.mem_flatten.1 hc
    obtain ⟨i, hi, rfl⟩ := List.mem_iff_getElem.1 hl
    have hline : d.line? i = some d.lines[i] := List.getElem?_eq_getElem hi
    have hle : i ≤ d.lastLine := by
      have := d.lastLine_add_one
      unfold lineCount at this
      omega
    rcases Nat.lt_or_eq_of_le hle with hlt | rfl
    · obtain ⟨hended, hcontent, -⟩ := h i hlt
      rw [hline, Option.some.injEq] at hended
      rw [hended] at hc
      rcases List.mem_append.1 hc with hc | hc
      · exact absurd hbreak (hcontent c hc)
      · exact List.mem_singleton.1 hc
    · -- The last line has no break.
      rw [line?_lastLine, Option.some.injEq] at hline
      rw [← hline] at hc
      exact absurd hbreak (not_isLineBreak_of_mem_getLast_splitLines hc)

end Document

namespace CommandLine

/-- **What is left of the breaks of a file**: only line feeds, if all breaks were plain. -/
theorem lineFeedsOnly_unifyBreaks_iff (t : Text) :
    (Document.ofText (unifyBreaks t)).LineFeedsOnly ↔ PlainBreaks t := by
  change (∀ c ∈ unifyBreaks t, isLineBreak c → c = '\n') ↔ PlainBreaks t
  fun_induction unifyBreaks t with
  | case1 rest ih =>
    rw [List.forall_mem_cons, ih, plainBreaks_cons, plainBreaks_cons]
    simp
  | case2 c rest hpair ih =>
    -- The character is kept, so that it must not be the first of a pair.
    have hfirst : ¬ (c = '\r' ∧ rest.head? = some '\n') := by
      rintro ⟨rfl, hrest⟩
      obtain ⟨rest, rfl⟩ := List.head?_eq_some_iff.1 hrest
      exact hpair rest rfl rfl
    rw [List.forall_mem_cons, ih, plainBreaks_cons, or_iff_left hfirst]
  | case3 => simp [plainBreaks_nil]

/-- Nothing but carriage returns is dropped. -/
theorem unifyBreaks_of_plainBreaks {t : Text} (h : PlainBreaks t) :
    unifyBreaks t = t.filter (· ≠ '\r') := by
  fun_induction unifyBreaks t with
  | case1 rest ih =>
    rw [plainBreaks_cons, plainBreaks_cons] at h
    simp [ih h.2.2]
  | case2 c rest hpair ih =>
    obtain ⟨hfirst, hrest⟩ := plainBreaks_cons.1 h
    have hc : c ≠ '\r' := by
      rintro rfl
      obtain ⟨rest, rfl⟩ := List.head?_eq_some_iff.1 ((hfirst rfl).resolve_left (by decide)).2
      exact hpair rest rfl rfl
    rw [ih hrest, List.filter_cons, if_pos (by simpa using hc)]
  | case3 => rfl

/-- **Which files are opened with line feeds as the only breaks**: those that have no other breaks
than line feeds and pairs of a carriage return and a line feed. Of such a file the carriage returns
are dropped. -/
theorem openEditor_endsInLineFeeds_iff (a : Arguments) (content : List Char) :
    ∃ d, (openEditor a content).document = some d ∧
      (d.LineFeedsOnly ↔ d.EndsInLineFeeds) ∧ (d.EndsInLineFeeds ↔ PlainBreaks content) ∧
      (PlainBreaks content → d.text = content.filter (· ≠ '\r')) := by
  have hends := (Document.ofText (unifyBreaks content)).lineFeedsOnly_iff_endsInLineFeeds
  exact ⟨_, rfl, hends, hends.symm.trans (lineFeedsOnly_unifyBreaks_iff content),
    unifyBreaks_of_plainBreaks⟩

/-- **Not every file is opened with line feeds as the only breaks.** A carriage return on its own
ends its line and stays part of it, so that the end of the line is where the next line starts. -/
theorem not_openEditor_endsInLineFeeds :
    let a : Arguments := { path := "a.txt", keys := "i<BS>", cursors := [⟨1, 0⟩] }
    let d := Document.ofText ['a', '\r', 'b']
    (openEditor a ['a', '\r', 'b']).document = some d ∧ ¬ d.LineFeedsOnly ∧
      d.line? 0 = some ['a', '\r'] ∧ d.content 0 = ['a', '\r'] ∧
      d.offsetOf (d.lineEnd 0) = d.offsetOf ⟨1, 0⟩ ∧ ¬ d.EndsInLineFeeds := by
  intro a d
  have hd : ¬ d.LineFeedsOnly := by decide
  refine ⟨by decide, hd, by decide, by decide, by decide, fun h => hd ?_⟩
  exact Document.lineFeedsOnly_iff_endsInLineFeeds.2 h

end CommandLine

end ModalEdit
