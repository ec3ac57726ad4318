import ModalEdit.Text.Lines

/-!
# Where the breaks of a text stand

Every line but the last ends in a break and the last holds none. In a text whose only breaks are
line feeds a line but the last is therefore its content and one line feed.

Breaks are plain if they are line feeds or pairs of a carriage return and a line feed. This is to
say that every line but the last ends in a line feed (`plainBreaks_iff_getLast?`).
-/

namespace ModalEdit

theorem getLast?_of_mem_dropLast_splitLines {t l : Text} (h : l ∈ (splitLines t).dropLast) :
    ∃ c, l.getLast? = some c ∧ isLineBreak c := by
  induction t generalizing l with
  | nil => simp [splitLines] at h
  | cons c cs ih =>
    -- A character put in front of the first line leaves the last character of every line.
    have hcons : l ∈ (consFirst c (splitLines cs)).dropLast →
        ∃ c, l.getLast? = some c ∧ isLineBreak c := by
      intro h
      rcases hs : splitLines cs with _ | ⟨k, _ | ⟨k', ks⟩⟩
      · exact absurd hs (splitLines_ne_nil cs)
      · simp [hs, consFirst] at h
      · rw [hs] at h ih
        rcases List.mem_cons.1 h with rfl | h
        · obtain ⟨b, hb, hbreak⟩ := ih (List.mem_cons_self ..)
          exact ⟨b, by simp [List.getLast?_cons, hb], hbreak⟩
        · exact ih (List.mem_cons_of_mem _ h)
    unfold splitLines at h
    split at h
    · exact hcons h
    · split at h
      · rename_i hbreak
        rw [List.dropLast_cons_of_ne_nil (splitLines_ne_nil cs)] at h
        rcases List.mem_cons.1 h with rfl | h
        · exact ⟨c, rfl, hbreak⟩
        · exact ih h
      · exact hcons h

theorem consFirst_ne_nil (c : Char) (ls : List Text) : consFirst c ls ≠ [] := by
  cases ls <;> simp [consFirst]

theorem not_isLineBreak_of_mem_getLast_splitLines {t : Text} {c : Char}
    (h : c ∈ (splitLines t).getLast (splitLines_ne_nil t)) : ¬ isLineBreak c := by
  induction t with
  | nil => simp [splitLines] at h
  | cons b cs ih =>
    -- A break is put in front of a line only if it is half of a pair, and then not of the last.
    have hcons : ¬ isLineBreak b ∨ (splitLines cs).length ≠ 1 →
        ∀ hne, c ∈ (consFirst b (splitLines cs)).getLast hne → ¬ isLineBreak c := by
      intro hb hne h
      rcases hs : splitLines cs with _ | ⟨k, _ | ⟨k', ks⟩⟩
      · exact absurd hs (splitLines_ne_nil cs)
      · simp only [hs, consFirst, List.getLast_singleton, List.mem_cons] at h ih hb
        rcases h with rfl | h
        · exact hb.resolve_right (by simp)
        · exact ih h
      · simp only [hs, consFirst, List.getLast_cons_cons] at h ih
        exact ih h
    by_cases hb : isLineBreak b
    · by_cases hcr : b = '\r' ∧ cs.head? = some '\n'
      · refine hcons (.inr ?_) (consFirst_ne_nil b _) ?_
        · obtain ⟨cs', rfl⟩ := List.head?_eq_some_iff.1 hcr.2
          simpa [splitLines, isLineBreak] using splitLines_ne_nil cs'
        · simpa only [splitLines, hcr, and_self, ↓reduceIte] using h
      · simp only [splitLines, hcr, hb, ↓reduceIte] at h
        rw [List.getLast_cons (splitLines_ne_nil cs)] at h
        exact ih h
    · refine hcons (.inl hb) (consFirst_ne_nil b _) ?_
      by_cases hcr : b = '\r' ∧ cs.head? = some '\n'
      · simpa only [splitLines, hcr, and_self, ↓reduceIte] using h
      · simpa only [splitLines, hcr, hb, ↓reduceIte, Bool.false_eq_true] using h

theorem dropBreak_getLast_splitLines {t : Text} :
    dropBreak ((splitLines t).getLast (splitLines_ne_nil t)) =
      (splitLines t).getLast (splitLines_ne_nil t) := by
  unfold dropBreak
  split
  · rename_i h
    exact absurd (by decide) (not_isLineBreak_of_mem_getLast_splitLines (List.mem_of_getLast? h))
  · rfl

/-- A line feed is the last character of its line. -/
theorem not_mem_dropLast_of_mem_splitLines {t l : Text} (h : l ∈ splitLines t) :
    '\n' ∉ l.dropLast := by
  induction t generalizing l with
  | nil =>
    obtain rfl : l = [] := by simpa [splitLines] using h
    exact List.not_mem_nil
  | cons c cs ih =>
    have hcons (hc : c ≠ '\n') (h : l ∈ consFirst c (splitLines cs)) : '\n' ∉ l.dropLast := by
      rcases hs : splitLines cs with _ | ⟨k, ks⟩
      · exact absurd hs (splitLines_ne_nil cs)
      · rw [hs] at h ih
        rcases List.mem_cons.1 h with rfl | h
        · have hk := ih List.mem_cons_self
          cases k with
          | nil => exact List.not_mem_nil
          | cons a k => simpa [hc.symm] using hk
        · exact ih (List.mem_cons_of_mem _ h)
    unfold splitLines at h
    split at h
    · rename_i hpair
      exact hcons (by simp [hpair.1]) h
    · split at h
      · rcases List.mem_cons.1 h with rfl | h
        · exact List.not_mem_nil
        · exact ih h
      · rename_i hbreak
        exact hcons (by rintro rfl; exact hbreak rfl) h

theorem length_le_dropBreak (l : Text) : l.length ≤ (dropBreak l).length + 1 := by
  unfold dropBreak
  split
  · rw [List.length_dropLast]
    omega
  · exact Nat.le_succ _

/-- In a text whose only breaks are line feeds, a line but the last is longer than its content by
one. -/
theorem length_dropBreak_add_one {t l : Text} (ht : ∀ c ∈ t, isLineBreak c → c = '\n')
    (h : l ∈ (splitLines t).dropLast) : (dropBreak l).length + 1 = l.length := by
  obtain ⟨c, hc, hbreak⟩ := getLast?_of_mem_dropLast_splitLines h
  have hmem : c ∈ t := by
    rw [← flatten_splitLines t]
    exact List.mem_flatten.2 ⟨l, List.dropLast_subset _ h, List.mem_of_getLast? hc⟩
  obtain rfl := ht c hmem hbreak
  have : l ≠ [] := by rintro rfl; simp at hc
  have := List.length_pos_iff.2 this
  simp only [dropBreak, hc, ↓reduceIte, List.length_dropLast]
  omega

/-! ### Plain breaks -/

/-- Every break is a line feed, or a carriage return that a line feed follows. -/
def PlainBreaks (t : Text) : Prop :=
  ∀ i c, t[i]? = some c → isLineBreak c → c = '\n' ∨ c = '\r' ∧ t[i + 1]? = some '\n'

theorem plainBreaks_nil : PlainBreaks [] := by
  intro i c h
  cases h

theorem plainBreaks_cons {c : Char} {t : Text} :
    PlainBreaks (c :: t) ↔
      (isLineBreak c → c = '\n' ∨ c = '\r' ∧ t.head? = some '\n') ∧ PlainBreaks t := by
  constructor
  · intro h
    refine ⟨fun hc => ?_, fun i b hb => h (i + 1) b hb⟩
    simpa [List.head?_eq_getElem?] using h 0 c rfl hc
  · rintro ⟨hfirst, hrest⟩ i b hb hbreak
    cases i with
    | zero =>
      obtain rfl : c = b := by simpa using hb
      simpa [List.head?_eq_getElem?] using hfirst hbreak
    | succ i => exact hrest i b hb hbreak

/-- A character in front of the first line ends no line. -/
theorem map_getLast?_consFirst (c : Char) (t : Text) :
    (consFirst c (splitLines t)).dropLast.map List.getLast? =
      (splitLines t).dropLast.map List.getLast? := by
  rcases hs : splitLines t with _ | ⟨k, _ | ⟨k', ks⟩⟩
  · exact absurd hs (splitLines_ne_nil t)
  · rfl
  · have hmem : k ∈ (splitLines t).dropLast := by
      rw [hs]
      exact List.mem_cons_self
    obtain ⟨b, hb, -⟩ := getLast?_of_mem_dropLast_splitLines hmem
    simp [consFirst, List.getLast?_cons, hb]

/-- **Breaks are plain if and only if every line but the last ends in a line feed.** -/
theorem plainBreaks_iff_getLast? {t : Text} :
    PlainBreaks t ↔ ∀ x ∈ (splitLines t).dropLast.map List.getLast?, x = some '\n' := by
  induction t with
  | nil => simp [plainBreaks_nil, splitLines]
  | cons c cs ih =>
    rw [plainBreaks_cons, ih, splitLines]
    split
    · rename_i hpair
      rw [map_getLast?_consFirst, and_iff_right fun _ => .inr hpair]
    · rename_i hpair
      rw [or_iff_left hpair]
      split
      · rename_i hbreak
        rw [List.dropLast_cons_of_ne_nil (splitLines_ne_nil cs), List.map_cons,
          List.forall_mem_cons, List.getLast?_singleton, Option.some.injEq,
          forall_prop_of_true hbreak]
      · rename_i hbreak
        rw [map_getLast?_consFirst, and_iff_right fun h => absurd h hbreak]

end ModalEdit
